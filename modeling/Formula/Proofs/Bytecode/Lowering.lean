import Formula.Bytecode.Codegen
import Formula.Proofs.LeftToRight
import Formula.Proofs.SymbolTable

/-!
# What bytecode is generated

`Bytecode.lower` lists the instructions of an expression by recursion on the tree, given the
operands that stand for its names. `emit_lower` shows that the generator appends exactly this list
with the numbers of the names for operands, and `emit_isOk` that it never fails while there are
numbers left.
-/

namespace Formula.Bytecode

variable {v f : Type}

mutual

/-- The instructions of an expression. -/
def lower (var : String → v) (function : Signature → f) : Expr → List (Instr v f)
  | .number _ value => [.pushConst value]
  | .var _ name => [.loadVar (var name)]
  | .call _ name args =>
    lowerAll var function args ++ [.invoke (function ⟨name, args.length⟩)]
  | .unary _ .neg operand => lower var function operand ++ [.neg]
  | .unary _ .plus operand => lower var function operand
  | .binary _ op left right =>
    lower var function left ++ (lower var function right ++ [.binary op])
  | .sequence _ first second =>
    lower var function first ++ (.discard :: lower var function second)

/-- The instructions of several expressions. -/
def lowerAll (var : String → v) (function : Signature → f) : List Expr → List (Instr v f)
  | [] => []
  | e :: es => lower var function e ++ lowerAll var function es

end

/-- The instructions of an expression whose names have numbers. -/
def numbered (number : Symbol → SymbolId) (e : Expr) : Code :=
  lower (fun name => number (.ofVar name)) (fun signature => number (.ofSignature signature)) e

/-- The same of several expressions. -/
def numberedAll (number : Symbol → SymbolId) (es : List Expr) : Code :=
  lowerAll (fun name => number (.ofVar name)) (fun signature => number (.ofSignature signature)) es

/-! ## The generator follows the tree -/

/-- From `g` to `g'` the generator has numbered `names` and emitted `code`. The code is that of any
table that the numbering may still grow to. -/
structure Emits (g g' : Generator) (names : List Reference) (code : (Symbol → SymbolId) → Code) :
    Prop where
  symbols : g.symbols.internAll (names.map Reference.symbol) = some g'.symbols
  code : ∀ table : SymbolTable, g'.symbols.Grows table →
    g'.code.toList = g.code.toList ++ code table.number

namespace Emits

variable {g g₁ g₂ : Generator} {names names₁ names₂ : List Reference}
  {code code₁ code₂ : (Symbol → SymbolId) → Code}

theorem refl (g : Generator) : Emits g g [] (fun _ => []) :=
  ⟨rfl, by simp⟩

theorem valid (h : Emits g g₁ names code) (hValid : g.symbols.Valid) : g₁.symbols.Valid :=
  (SymbolTable.internAll_some hValid h.symbols).1

theorem trans (hValid : g₁.symbols.Valid) (h₁ : Emits g g₁ names₁ code₁)
    (h₂ : Emits g₁ g₂ names₂ code₂) :
    Emits g g₂ (names₁ ++ names₂) (fun number => code₁ number ++ code₂ number) where
  symbols := by
    rw [List.map_append, SymbolTable.internAll_append, h₁.symbols]
    exact h₂.symbols
  code table hTable := by
    have hGrows := (SymbolTable.internAll_some hValid h₂.symbols).2.1
    rw [h₂.code table hTable, h₁.code table (hGrows.trans hTable), List.append_assoc]

theorem push (h : Emits g g₁ names code) (i : Instr SymbolId SymbolId) :
    Emits g (g₁.push i) names (fun number => code number ++ [i]) where
  symbols := h.symbols
  code table hTable := by
    rw [← List.append_assoc, ← h.code table hTable]
    exact Array.toList_push

theorem congr (h : Emits g g₁ names code₁) (hCode : ∀ number, code₁ number = code₂ number) :
    Emits g g₁ names code₂ :=
  funext hCode ▸ h

/-- An instruction with the number of a name. -/
theorem pushSymbol {span : Span} (name : Reference) {make : SymbolId → Instr SymbolId SymbolId}
    (hValid : g.symbols.Valid) (h : g.pushSymbol span name.symbol make = .ok g₁) :
    Emits g g₁ [name] (fun number => [make (number name.symbol)]) := by
  unfold Generator.pushSymbol at h
  split at h
  · cases h
  · rename_i id symbols hIntern
    cases h
    refine ⟨SymbolTable.internAll_singleton hIntern, ?_⟩
    intro table hTable
    have hId := SymbolTable.number_eq
      (hTable.id? _ _ (SymbolTable.intern_some hValid hIntern).2.2)
    rw [hId]
    exact Array.toList_push

end Emits

mutual

/-- The generator appends the instructions of the expression. -/
theorem emit_lower : ∀ (e : Expr) {g g' : Generator}, g.symbols.Valid → g.emit e = .ok g' →
    Emits g g' e.references (fun number => numbered number e)
  | .number _ value, g, g', _, h => by
    cases h
    exact (Emits.refl g).push _
  | .var span name, g, g', hValid, h => Emits.pushSymbol (.var name) hValid h
  | .call span name args, g, g', hValid, h => by
    rw [Generator.emit] at h
    obtain ⟨g₁, hArgs, h⟩ := Except.bind_eq_ok_iff.mp h
    have hArgs := emitAll_lower args hValid hArgs
    exact hArgs.trans (hArgs.valid hValid)
      (Emits.pushSymbol (.call ⟨name, args.length⟩) (hArgs.valid hValid) h)
  | .unary _ .neg operand, g, g', hValid, h => by
    rw [Generator.emit] at h
    obtain ⟨g₁, hOperand, h⟩ := Except.bind_eq_ok_iff.mp h
    cases h
    exact (emit_lower operand hValid hOperand).push .neg
  | .unary _ .plus operand, g, g', hValid, h => emit_lower operand hValid h
  | .binary _ op left right, g, g', hValid, h => by
    rw [Generator.emit] at h
    obtain ⟨g₁, hLeft, h⟩ := Except.bind_eq_ok_iff.mp h
    obtain ⟨g₂, hRight, h⟩ := Except.bind_eq_ok_iff.mp h
    cases h
    have hLeft := emit_lower left hValid hLeft
    have hRight := emit_lower right (hLeft.valid hValid) hRight
    exact ((hLeft.trans (hLeft.valid hValid) hRight).push (.binary op)).congr
      (by simp [numbered, lower])
  | .sequence _ first second, g, g', hValid, h => by
    rw [Generator.emit] at h
    obtain ⟨g₁, hFirst, h⟩ := Except.bind_eq_ok_iff.mp h
    have hFirst := (emit_lower first hValid hFirst).push .discard
    have hSecond := emit_lower second (hFirst.valid hValid) h
    exact (hFirst.trans (hFirst.valid hValid) hSecond).congr (by simp [numbered, lower])

theorem emitAll_lower : ∀ (es : List Expr) {g g' : Generator}, g.symbols.Valid →
    g.emitAll es = .ok g' →
    Emits g g' (Expr.referencesAll es) (fun number => numberedAll number es)
  | [], g, g', _, h => by
    cases h
    exact .refl g
  | e :: es, g, g', hValid, h => by
    simp only [Generator.emitAll] at h
    split at h
    · cases h
    · rename_i g₁ hHead
      have hHead := emit_lower e hValid hHead
      exact hHead.trans (hHead.valid hValid) (emitAll_lower es (hHead.valid hValid) h)

end

/-- The code of a whole expression. -/
theorem ofExpr?_ok {e : Expr} {emitted : Emitted} (h : ofExpr? e = .ok emitted) :
    SymbolTable.empty.internAll (e.references.map Reference.symbol) = some emitted.symbols ∧
      emitted.code = numbered emitted.symbols.number e := by
  obtain ⟨g, hEmit, h⟩ := Except.bind_eq_ok_iff.mp h
  cases h
  have hEmit := emit_lower e SymbolTable.valid_empty hEmit
  exact ⟨hEmit.symbols, hEmit.code _ (.refl _)⟩

/-! ## Which expressions are accepted -/

theorem pushSymbol_isOk {g : Generator} {symbol : Symbol} (span : Span) {late : SymbolTable}
    (make : SymbolId → Instr SymbolId SymbolId) (h : g.symbols.internAll [symbol] = some late) :
    ∃ g', g.pushSymbol span symbol make = .ok g' ∧ g'.symbols = late := by
  obtain ⟨id, hIntern⟩ := SymbolTable.intern_of_internAll h
  rw [Generator.pushSymbol, hIntern]
  exact ⟨_, rfl, rfl⟩

mutual

/-- An expression whose names can be numbered is accepted. -/
theorem emit_isOk : ∀ (e : Expr) {g : Generator} {late : SymbolTable},
    g.symbols.internAll (e.references.map Reference.symbol) = some late →
    ∃ g', g.emit e = .ok g' ∧ g'.symbols = late
  | .number _ _, g, late, h => ⟨_, rfl, Option.some.inj h⟩
  | .var span name, g, late, h => pushSymbol_isOk span .loadVar h
  | .call span name args, g, late, h => by
    obtain ⟨middle, hArgsNames, hName⟩ := SymbolTable.internAll_append_some h
    obtain ⟨g₁, hArgs, rfl⟩ := emitAll_isOk args hArgsNames
    simp only [Generator.emit, bind, Except.bind, hArgs]
    exact pushSymbol_isOk span .invoke hName
  | .unary _ .neg operand, g, late, h => by
    obtain ⟨g₁, hOperand, hSymbols⟩ := emit_isOk operand h
    simp only [Generator.emit, bind, Except.bind, hOperand]
    exact ⟨_, rfl, hSymbols⟩
  | .unary _ .plus operand, g, late, h => emit_isOk operand h
  | .binary _ op left right, g, late, h => by
    obtain ⟨middle, hLeftNames, hRightNames⟩ := SymbolTable.internAll_append_some h
    obtain ⟨g₁, hLeft, rfl⟩ := emit_isOk left hLeftNames
    obtain ⟨g₂, hRight, rfl⟩ := emit_isOk right hRightNames
    simp only [Generator.emit, bind, Except.bind, hLeft, hRight]
    exact ⟨_, rfl, rfl⟩
  | .sequence _ first second, g, late, h => by
    obtain ⟨middle, hFirstNames, hSecond⟩ := SymbolTable.internAll_append_some h
    obtain ⟨g₁, hFirst, rfl⟩ := emit_isOk first hFirstNames
    simp only [Generator.emit, bind, Except.bind, hFirst]
    exact emit_isOk second (g := g₁.push .discard) hSecond

theorem emitAll_isOk : ∀ (es : List Expr) {g : Generator} {late : SymbolTable},
    g.symbols.internAll ((Expr.referencesAll es).map Reference.symbol) = some late →
    ∃ g', g.emitAll es = .ok g' ∧ g'.symbols = late
  | [], g, late, h => ⟨g, rfl, Option.some.inj h⟩
  | e :: es, g, late, h => by
    obtain ⟨middle, hHeadNames, hTail⟩ := SymbolTable.internAll_append_some h
    obtain ⟨g₁, hHead, rfl⟩ := emit_isOk e hHeadNames
    simp only [Generator.emitAll, hHead]
    exact emitAll_isOk es hTail

end

/-- Bytecode is generated exactly for expressions whose names can be numbered. -/
theorem ofExpr?_isOk {e : Expr} {late : SymbolTable}
    (h : SymbolTable.empty.internAll (e.references.map Reference.symbol) = some late) :
    ∃ emitted, ofExpr? e = .ok emitted ∧ emitted.symbols = late := by
  obtain ⟨g, hEmit, rfl⟩ := emit_isOk e (g := .empty) h
  simp only [ofExpr?, bind, Except.bind, hEmit]
  exact ⟨_, rfl, rfl⟩

end Formula.Bytecode
