import Formula.Proofs.Bytecode.Encoding
import Formula.Proofs.Context.Lookup
import Formula.Proofs.Native.Patching
import Formula.Proofs.Native.Value
import Formula.Proofs.Numbering

/-!
# The symbols of an expression's code

Both generators number the names of an expression in order of evaluation (`symbols_emit`), so they
have the same tables and run out of numbers at the same node. The places of symbols are those of the
uses: one address for each of them, and in native code also one environment for each call. The
peephole pass drops no use of a symbol (`filterMap_symbol?_optimize`).
`Object.generators_share_symbols` puts this together.
-/

namespace Formula

/-! ## Bytecode -/

namespace Bytecode

theorem symbols_pushSymbol (g : Generator) (span : Span) (name : Reference)
    (make : SymbolId → Instr SymbolId SymbolId) :
    (g.pushSymbol span name.symbol make).map Generator.symbols =
      g.symbols.internUses [(span, name)] := by
  rw [Generator.pushSymbol, SymbolTable.internUses]
  obtain ⟨found, table⟩ := g.symbols.intern name.symbol
  cases found <;> rfl

mutual

/-- The generator numbers the names of the expression in order of evaluation. -/
theorem symbols_emit : ∀ (e : Expr) (g : Generator),
    (g.emit e).map Generator.symbols = g.symbols.internUses e.uses
  | .number _ _, _ => rfl
  | .var span name, g => symbols_pushSymbol g span (.var name) .loadVar
  | .call span name args, g => by
    rw [Generator.emit, Expr.uses, SymbolTable.internUses_append, ← symbols_emitAll args g]
    cases g.emitAll args with
    | error error => rfl
    | ok g => exact symbols_pushSymbol g span (.call ⟨name, args.length⟩) .invoke
  | .unary _ .neg operand, g => by
    rw [Generator.emit, Expr.uses, ← symbols_emit operand g]
    cases g.emit operand <;> rfl
  | .unary _ .plus operand, g => symbols_emit operand g
  | .binary _ op left right, g => by
    rw [Generator.emit, Expr.uses, SymbolTable.internUses_append, ← symbols_emit left g]
    cases g.emit left with
    | error error => rfl
    | ok g =>
      show _ = g.symbols.internUses right.uses
      rw [← symbols_emit right g]
      show Except.map _ (g.emit right >>= _) = _
      cases g.emit right <;> rfl
  | .sequence _ first second, g => by
    rw [Generator.emit, Expr.uses, SymbolTable.internUses_append, ← symbols_emit first g]
    cases g.emit first with
    | error error => rfl
    | ok g => exact symbols_emit second (g.push .discard)

theorem symbols_emitAll : ∀ (es : List Expr) (g : Generator),
    (g.emitAll es).map Generator.symbols = g.symbols.internUses (Expr.usesAll es)
  | [], _ => rfl
  | e :: es, g => by
    rw [Generator.emitAll, Expr.usesAll, SymbolTable.internUses_append, ← symbols_emit e g]
    cases g.emit e with
    | error error => rfl
    | ok g => exact symbols_emitAll es g

end

theorem symbols_ofExpr? (e : Expr) :
    (ofExpr? e).map Emitted.symbols = SymbolTable.empty.internUses e.uses := by
  have hEmit := symbols_emit e .empty
  rw [ofExpr?]
  refine Eq.trans ?_ hEmit
  cases Generator.empty.emit e <;> rfl

/-- The relocations of bytecode are, in order, its uses of symbols. -/
theorem Code.map_symbol_relocations (code : Code) :
    code.relocations.map Relocation.symbol = code.filterMap Instr.symbol? := by
  suffices general : ∀ offset, (relocationsFrom offset code).map Relocation.symbol =
      code.filterMap Instr.symbol? by
    rw [relocations_eq]
    exact general 0
  induction code with
  | nil => exact fun _ => rfl
  | cons i code ih =>
    intro offset
    cases hSymbol : i.symbol? with
    | none => simp only [relocationsFrom, hSymbol, ih, List.filterMap_cons_none]
    | some id =>
      simp only [relocationsFrom, hSymbol, List.map_cons, ih]
      exact (List.filterMap_cons_some hSymbol).symm

mutual

/-- The instructions that refer to symbols are, in order, those for the names. -/
theorem filterMap_symbol?_numbered (number : Symbol → SymbolId) : ∀ e : Expr,
    (numbered number e).filterMap Instr.symbol? = e.references.map fun r => number r.symbol
  | .number _ _ => rfl
  | .var _ _ => rfl
  | .call _ name args => by
    have hArgs := filterMap_symbol?_numberedAll number args
    simp only [numbered, numberedAll, lower, Expr.references, List.filterMap_append,
      List.map_append] at hArgs ⊢
    rw [hArgs]
    rfl
  | .unary _ .neg operand => by
    have hOperand := filterMap_symbol?_numbered number operand
    simp only [numbered, lower, Expr.references, List.filterMap_append] at hOperand ⊢
    rw [hOperand]
    exact List.append_nil _
  | .unary _ .plus operand => filterMap_symbol?_numbered number operand
  | .binary _ op left right => by
    have hLeft := filterMap_symbol?_numbered number left
    have hRight := filterMap_symbol?_numbered number right
    simp only [numbered, lower, Expr.references, List.filterMap_append, List.map_append]
      at hLeft hRight ⊢
    rw [hLeft, hRight]
    exact congrArg _ (List.append_nil _)
  | .sequence _ first second => by
    have hFirst := filterMap_symbol?_numbered number first
    have hSecond := filterMap_symbol?_numbered number second
    simp only [numbered, lower, Expr.references, List.filterMap_append, List.map_append]
      at hFirst hSecond ⊢
    rw [hFirst]
    exact congrArg _ hSecond

theorem filterMap_symbol?_numberedAll (number : Symbol → SymbolId) : ∀ es : List Expr,
    (numberedAll number es).filterMap Instr.symbol? =
      (Expr.referencesAll es).map fun r => number r.symbol
  | [] => rfl
  | e :: es => by
    have hHead := filterMap_symbol?_numbered number e
    have hTail := filterMap_symbol?_numberedAll number es
    simp only [numbered, numberedAll, lowerAll, Expr.referencesAll, List.filterMap_append,
      List.map_append] at hHead hTail ⊢
    rw [hHead, hTail]

end

end Bytecode

/-! ## Native code -/

/-- Whether a name is that of a function. -/
def Reference.isCall : Reference → Bool
  | .var _ => false
  | .call _ => true

namespace Native

theorem symbols_number (g : Generator) (span : Span) (name : Reference) :
    (g.number span name.symbol).map (fun found => found.2.symbols) =
      g.symbols.internUses [(span, name)] := by
  rw [Generator.number, SymbolTable.internUses]
  obtain ⟨found, table⟩ := g.symbols.intern name.symbol
  cases found <;> rfl

mutual

/-- The generator numbers the names of the expression in order of evaluation, if no call has too
many arguments. -/
theorem symbols_emit : ∀ (e : Expr) (g : Generator), e.CallsWithin maxArity →
    (g.emit e).map Generator.symbols = g.symbols.internUses e.uses
  | .number _ _, _, _ => rfl
  | .var span name, g, _ => by
    rw [Generator.emit, Expr.uses, ← symbols_number g span (.var name)]
    show Except.map _ (g.number span (.ofVar name) >>= _) = _
    rw [Reference.symbol]
    cases g.number span (.ofVar name) with
    | error error => rfl
    | ok found => exact congrArg Except.ok (Generator.putAll_symbols ..)
  | .call span name args, g, hArity => by
    rw [Generator.emit, if_neg (Nat.not_lt.mpr hArity.1), Expr.uses,
      SymbolTable.internUses_append, ← symbols_emitAll args g hArity.2]
    cases g.emitAll args with
    | error error => rfl
    | ok g =>
      show Except.map _ (g.number span (.ofSignature ⟨name, args.length⟩) >>= _) =
        g.symbols.internUses [(span, .call ⟨name, args.length⟩)]
      rw [← symbols_number g span (.call ⟨name, args.length⟩), Reference.symbol]
      cases g.number span (.ofSignature ⟨name, args.length⟩) with
      | error error => rfl
      | ok found => exact congrArg Except.ok (Generator.callFunction_symbols ..)
  | .unary _ .neg operand, g, hArity => by
    rw [Generator.emit, Expr.uses, ← symbols_emit operand g hArity]
    cases g.emit operand with
    | error error => rfl
    | ok g => exact congrArg Except.ok (by simp [Generator.popXmm, Generator.pushXmm0])
  | .unary _ .plus operand, g, hArity => symbols_emit operand g hArity
  | .binary _ op left right, g, hArity => by
    rw [Generator.emit, Expr.uses, SymbolTable.internUses_append, ← symbols_emit left g hArity.1]
    cases g.emit left with
    | error error => rfl
    | ok g =>
      show Except.map _ (g.emit right >>= _) = g.symbols.internUses right.uses
      rw [← symbols_emit right g hArity.2]
      cases g.emit right with
      | error error => rfl
      | ok g => exact congrArg Except.ok (by simp [Generator.popXmm, Generator.pushXmm0])
  | .sequence _ first second, g, hArity => by
    rw [Generator.emit, Expr.uses, SymbolTable.internUses_append, ← symbols_emit first g hArity.1]
    cases g.emit first with
    | error error => rfl
    | ok g => exact symbols_emit second g.popRax hArity.2

theorem symbols_emitAll : ∀ (es : List Expr) (g : Generator), Expr.CallsWithinAll maxArity es →
    (g.emitAll es).map Generator.symbols = g.symbols.internUses (Expr.usesAll es)
  | [], _, _ => rfl
  | e :: es, g, hArity => by
    rw [Generator.emitAll, Expr.usesAll, SymbolTable.internUses_append,
      ← symbols_emit e g hArity.1]
    cases g.emit e with
    | error error => rfl
    | ok g => exact symbols_emitAll es g hArity.2

end

theorem symbols_ofExpr? {e : Expr} (hArity : e.CallsWithin maxArity) :
    (ofExpr? e).map Emitted.symbols = SymbolTable.empty.internUses e.uses := by
  have hEmit := symbols_emit e .empty hArity
  rw [ofExpr?]
  refine Eq.trans ?_ hEmit
  cases Generator.empty.emit e with
  | error error => rfl
  | ok g => exact congrArg Except.ok (by simp [Generator.popXmm])

/-- What native code needs of a name: a call needs the environment as well. -/
def places (number : Symbol → SymbolId) (name : Reference) : List (SymbolId × RelocationKind) :=
  match name with
  | .var _ => [(number name.symbol, .address)]
  | .call _ => [(number name.symbol, .environment), (number name.symbol, .address)]

theorem filterMap_symbol?_pops (count : Nat) : (pops count).filterMap Inst.symbol? = [] := by
  induction count with
  | zero => rfl
  | succ count ih => exact ih

theorem filterMap_symbol?_alignedCall (depth : Nat) (id : SymbolId) :
    (alignedCall depth id ++ pushResult).filterMap Inst.symbol? =
      [(id, .environment), (id, .address)] := by
  rw [alignedCall]
  split_ifs <;> rfl

mutual

/-- The instructions that refer to symbols are, in order, those for the names. -/
theorem filterMap_symbol?_lower (number : Symbol → SymbolId) : ∀ (e : Expr) (depth : Nat),
    (lower number depth e).filterMap Inst.symbol? = e.references.flatMap (places number)
  | .number _ _, _ => rfl
  | .var _ _, _ => rfl
  | .call _ name args, depth => by
    rw [lower, List.filterMap_append, filterMap_symbol?_lowerAll number args depth,
      List.filterMap_append, filterMap_symbol?_pops, filterMap_symbol?_alignedCall,
      Expr.references, List.flatMap_append]
    rfl
  | .unary _ .neg operand, depth => by
    rw [lower, List.filterMap_append, filterMap_symbol?_lower number operand depth]
    exact List.append_nil _
  | .unary _ .plus operand, depth => filterMap_symbol?_lower number operand depth
  | .binary _ op left right, depth => by
    have hOp : (pops 2 ++ (.ofBinary op :: pushResult)).filterMap Inst.symbol? = [] := by
      cases op <;> rfl
    rw [lower, List.filterMap_append, filterMap_symbol?_lower number left depth,
      List.filterMap_append, filterMap_symbol?_lower number right (depth + 1), hOp,
      List.append_nil, Expr.references, List.flatMap_append]
  | .sequence _ first second, depth => by
    rw [lower, List.filterMap_append, filterMap_symbol?_lower number first depth,
      List.filterMap_cons_none rfl, filterMap_symbol?_lower number second depth,
      Expr.references, List.flatMap_append]

theorem filterMap_symbol?_lowerAll (number : Symbol → SymbolId) : ∀ (es : List Expr) (depth : Nat),
    (lowerAll number depth es).filterMap Inst.symbol? =
      (Expr.referencesAll es).flatMap (places number)
  | [], _ => rfl
  | e :: es, depth => by
    rw [lowerAll, List.filterMap_append, filterMap_symbol?_lower number e depth,
      filterMap_symbol?_lowerAll number es (depth + 1), Expr.referencesAll, List.flatMap_append]

end

theorem symbol?_of_redundant {first second : Inst} {rest : List Inst}
    (h : redundant first second rest = true) : first.symbol? = none ∧ second.symbol? = none := by
  unfold redundant at h
  split at h
  · exact ⟨rfl, rfl⟩
  · exact ⟨rfl, rfl⟩
  · cases h

theorem filterMap_symbol?_pass (code : List Inst) :
    (pass code).filterMap Inst.symbol? = code.filterMap Inst.symbol? := by
  induction code using pass.induct with
  | case1 => rfl
  | case2 i => rfl
  | case3 i j rest hDrop ih =>
    obtain ⟨hFirst, hSecond⟩ := symbol?_of_redundant hDrop
    rw [pass, if_pos hDrop, ih, List.filterMap_cons_none hFirst, List.filterMap_cons_none hSecond]
  | case4 i j rest hKeep ih =>
    rw [pass, if_neg hKeep, List.filterMap_cons, List.filterMap_cons, ih]

/-- The peephole pass drops no use of a symbol. -/
theorem filterMap_symbol?_optimize (code : List Inst) :
    (optimize code).filterMap Inst.symbol? = code.filterMap Inst.symbol? := by
  induction code using optimize.induct with
  | case1 code hShorter ih => rw [optimize, if_pos hShorter, ih, filterMap_symbol?_pass]
  | case2 code hSame => rw [optimize, if_neg hSame]

end Native

/-! ## Both -/

namespace Object

variable {e : Expr} {object : Object}

theorem symbols_bytecodeOfExpr? (e : Expr) :
    (bytecodeOfExpr? e).map Object.symbols = SymbolTable.empty.internUses e.uses := by
  rw [bytecodeOfExpr?, ← Bytecode.symbols_ofExpr? e]
  cases Bytecode.ofExpr? e <;> rfl

theorem symbols_nativeOfExpr? (optimize : Bool) (hArity : e.CallsWithin maxArity) :
    (nativeOfExpr? optimize e).map Object.symbols = SymbolTable.empty.internUses e.uses := by
  rw [nativeOfExpr?, ← Native.symbols_ofExpr? hArity]
  cases Native.ofExpr? e <;> rfl

/-- Bytecode has the distinct names of the expression for symbols, or there are too many of them. -/
theorem bytecodeOfExpr?_cases (e : Expr) :
    (∃ object, bytecodeOfExpr? e = .ok object ∧ object.symbols.Valid ∧
      object.symbols.toList = e.references.eraseDups.map Reference.symbol) ∨
    ∃ error, bytecodeOfExpr? e = .error error ∧ OutOfNumbers e.uses error := by
  have hSymbols := symbols_bytecodeOfExpr? e
  rcases SymbolTable.internUses_empty e.uses with ⟨table, hOk, hValid, hTable⟩ | ⟨error, hError, hOut⟩
  · rw [hOk] at hSymbols
    cases hObject : bytecodeOfExpr? e with
    | error error =>
      rw [hObject] at hSymbols
      cases hSymbols
    | ok object =>
      rw [hObject] at hSymbols
      obtain rfl : object.symbols = table := Except.ok.inj hSymbols
      rw [e.map_snd_uses] at hTable
      exact .inl ⟨object, rfl, hValid, hTable⟩
  · rw [hError] at hSymbols
    cases hObject : bytecodeOfExpr? e with
    | error error' =>
      rw [hObject] at hSymbols
      cases hSymbols
      exact .inr ⟨error, rfl, hOut⟩
    | ok object =>
      rw [hObject] at hSymbols
      cases hSymbols

theorem map_symbol_relocations_bytecode (h : bytecodeOfExpr? e = .ok object) :
    object.code.relocations.map Relocation.symbol =
      e.references.map fun r => object.symbols.number r.symbol := by
  rw [(symbols_bytecode h).2]
  exact (Bytecode.Code.map_symbol_relocations _).trans (Bytecode.filterMap_symbol?_numbered _ e)

/-- The relocations of native code are, in order, what it needs of the names. -/
theorem map_relocations_native {optimize : Bool} (h : nativeOfExpr? optimize e = .ok object) :
    object.code.relocations.map (fun r => (r.symbol, r.kind)) =
      e.references.flatMap (Native.places object.symbols.number) := by
  obtain ⟨emitted, hEmitted, hSymbols, hCode⟩ := exists_emitted h
  obtain ⟨-, -, hLower⟩ := Native.ofExpr?_ok hEmitted
  have hUses : emitted.code.filterMap Native.Inst.symbol? =
      e.references.flatMap (Native.places object.symbols.number) := by
    rw [hLower, List.filterMap_append, Native.filterMap_symbol?_lower, hSymbols]
    exact List.append_nil _
  rw [hCode, Code.relocations, Native.map_relocations]
  cases optimize with
  | false => exact hUses
  | true => exact (Native.filterMap_symbol?_optimize _).trans hUses

theorem map_filter_kind (relocations : List Relocation) (kind : RelocationKind) :
    (relocations.filter (·.kind = kind)).map Relocation.symbol =
      ((relocations.map fun r => (r.symbol, r.kind)).filter (·.2 = kind)).map Prod.fst := by
  rw [List.filter_map, List.map_map]
  rfl

theorem map_address_places (number : Symbol → SymbolId) (names : List Reference) :
    ((names.flatMap (Native.places number)).filter (·.2 = .address)).map Prod.fst =
      names.map fun r => number r.symbol := by
  induction names with
  | nil => rfl
  | cons name names ih =>
    rw [List.flatMap_cons, List.filter_append, List.map_append, ih]
    cases name <;> rfl

theorem map_environment_places (number : Symbol → SymbolId) (names : List Reference) :
    ((names.flatMap (Native.places number)).filter (·.2 = .environment)).map Prod.fst =
      (names.filter Reference.isCall).map fun r => number r.symbol := by
  induction names with
  | nil => rfl
  | cons name names ih =>
    rw [List.flatMap_cons, List.filter_append, List.map_append, ih]
    cases name <;> rfl

/-- Code for both machines has the same symbols, and refers to them in the same order. Neither can
be generated if there are more names than numbers; then the error is at the first name that gets
none. Only native code cannot have calls with too many arguments. -/
theorem generators_share_symbols (e : Expr) (optimize : Bool) :
    ((∃ object, bytecodeOfExpr? e = .ok object) ↔ e.references.toFinset.card ≤ 65536) ∧
    (∀ error, bytecodeOfExpr? e = .error error → OutOfNumbers e.uses error) ∧
    (¬e.CallsWithin 8 → ∃ error, nativeOfExpr? optimize e = .error error) ∧
    (e.CallsWithin 8 → (nativeOfExpr? optimize e).map Object.symbols =
      (bytecodeOfExpr? e).map Object.symbols) ∧
    ∀ object native, bytecodeOfExpr? e = .ok object → nativeOfExpr? optimize e = .ok native →
      -- numbered from zero on, by first use
      object.symbols.toList = e.references.eraseDups.map Reference.symbol ∧
      (∀ symbol (id : SymbolId), object.symbols.id? symbol = some id ↔
        object.symbols.toList[id.toNat]? = some symbol) ∧
      native.symbols = object.symbols ∧
      object.code.relocations.map Relocation.symbol =
        e.references.map (fun r => object.symbols.number r.symbol) ∧
      (native.code.relocations.filter (·.kind = .address)).map Relocation.symbol =
        object.code.relocations.map Relocation.symbol ∧
      (native.code.relocations.filter (·.kind = .environment)).map Relocation.symbol =
        (e.references.filter Reference.isCall).map fun r => object.symbols.number r.symbol := by
  have hCases := bytecodeOfExpr?_cases e
  have hSame (hArity : e.CallsWithin maxArity) : (nativeOfExpr? optimize e).map Object.symbols =
      (bytecodeOfExpr? e).map Object.symbols :=
    (symbols_nativeOfExpr? optimize hArity).trans (symbols_bytecodeOfExpr? e).symm
  refine ⟨⟨?_, fun hFits => ?_⟩, fun error hError => ?_, fun hMany => ?_, hSame, ?_⟩
  · rintro ⟨object, hObject⟩
    rcases hCases with ⟨object', hObject', hValid, hTable⟩ | ⟨error, hError, -⟩
    · rw [← length_eraseDups, ← List.length_map, ← hTable]
      exact hValid.size_le
    · rw [hObject] at hError
      cases hError
  · rcases hCases with ⟨object, hObject, -⟩ | ⟨error, -, hOut⟩
    · exact ⟨object, hObject⟩
    · have hMore := hOut.lt_card
      rw [e.map_snd_uses] at hMore
      exact absurd hFits (Nat.not_le.mpr hMore)
  · rcases hCases with ⟨object, hObject, -⟩ | ⟨error', hError', hOut⟩
    · rw [hObject] at hError
      cases hError
    · rw [hError'] at hError
      cases hError
      exact hOut
  · cases hNative : nativeOfExpr? optimize e with
    | error error => exact ⟨error, rfl⟩
    | ok native => exact absurd (symbols_native hNative).2 hMany
  · intro object native hObject hNative
    obtain ⟨object', hObject', hValid, hTable⟩ | ⟨error, hError, -⟩ := hCases
    swap
    · rw [hObject] at hError
      cases hError
    rw [hObject] at hObject'
    cases hObject'
    have hShared : native.symbols = object.symbols := by
      have hBoth := hSame (symbols_native hNative).2
      rw [hNative, hObject] at hBoth
      exact Except.ok.inj hBoth
    have hPlaces := map_relocations_native hNative
    have hAddresses := map_symbol_relocations_bytecode hObject
    refine ⟨hTable, fun symbol id => ?_, hShared, hAddresses, ?_, ?_⟩
    · rw [hValid.id?_iff, SymbolTable.get?, SymbolTable.toList, Array.getElem?_toList]
    · rw [hAddresses, map_filter_kind, hPlaces, map_address_places, hShared]
    · rw [map_filter_kind, hPlaces, map_environment_places, hShared]

/-- The symbols of `-f(x)` are `x` and `f`, in this order. -/
theorem shared_symbols_negatedCall : ∃ object native,
    bytecodeOfExpr? negatedCall = .ok object ∧ nativeOfExpr? true negatedCall = .ok native ∧
    native.symbols = object.symbols ∧
    object.symbols.toList = [.ofVar "x", .ofSignature ⟨"f", 1⟩] := by
  obtain ⟨hFits, -, -, hShared, hLists⟩ := generators_share_symbols negatedCall true
  have hCard : negatedCall.references.toFinset.card ≤ 65536 :=
    (List.toFinset_card_le _).trans (by decide)
  have hArity : negatedCall.CallsWithin 8 := by
    simp [negatedCall, Expr.CallsWithin, Expr.CallsWithinAll]
  obtain ⟨object, hObject⟩ := hFits.mpr hCard
  specialize hShared hArity
  rw [hObject] at hShared
  cases hNative : nativeOfExpr? true negatedCall with
  | error error =>
    rw [hNative] at hShared
    cases hShared
  | ok native =>
    obtain ⟨hTable, -, hSame, -⟩ := hLists object native hObject hNative
    exact ⟨object, native, hObject, rfl, hSame, hTable⟩

end Object

end Formula
