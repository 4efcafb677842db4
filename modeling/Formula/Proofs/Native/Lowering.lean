import Formula.Native.Codegen
import Formula.Proofs.LeftToRight
import Formula.Proofs.SymbolTable

/-!
# What native code is generated

`Native.lower` lists the instructions of an expression by recursion on the tree, given the numbers
of its symbols and the depth of the stack. `emit_lower` shows that the generator appends exactly
this list, numbered by any table that has grown from its own, and that it pushes one word.
-/

namespace Formula.Native

/-! ## The instructions of an expression -/

/-- Pops of so many arguments into the registers `xmm0` to `xmm7`, the last argument first. -/
def pops : Nat → List Inst
  | 0 => []
  | count + 1 => .popRax :: .raxToXmm (UInt8.ofNat count) :: pops count

/-- A push of `xmm0`. -/
def pushResult : List Inst :=
  [.xmmToRax 0, .pushRax]

/-- The call of a function whose arguments are in registers. -/
def callSymbol (id : SymbolId) : List Inst :=
  [.movAbsRdi (.symbol id), .movAbsRax (.symbol id), .callRax]

/-- The same with a word reserved where the depth of the stack is even. -/
def alignedCall (depth : Nat) (id : SymbolId) : List Inst :=
  if depth % 2 = 0 then .alignStack :: (callSymbol id ++ [.restoreStack]) else callSymbol id

mutual

/-- The instructions of an expression at a stack depth. -/
def lower (number : Symbol → SymbolId) (depth : Nat) : Expr → List Inst
  | .number _ value => [.movAbsRax (.value value.bits), .pushRax]
  | .var _ name => [.movAbsRax (.symbol (number (.ofVar name))), .pushMemRax]
  | .call _ name args =>
    lowerAll number depth args ++ (pops args.length ++
      (alignedCall depth (number (.ofSignature ⟨name, args.length⟩)) ++ pushResult))
  | .unary _ .neg operand =>
    lower number depth operand ++ (pops 1 ++
      ([.movAbsRax (.value signBit), .raxToXmm 1, .xorPd] ++ pushResult))
  | .unary _ .plus operand => lower number depth operand
  | .binary _ op left right =>
    lower number depth left ++ (lower number (depth + 1) right ++ (pops 2 ++
      (.ofBinary op :: pushResult)))
  | .sequence _ first second =>
    lower number depth first ++ (.popRax :: lower number depth second)

/-- The instructions of several expressions, each one deeper than the one before. -/
def lowerAll (number : Symbol → SymbolId) (depth : Nat) : List Expr → List Inst
  | [] => []
  | e :: es => lower number depth e ++ lowerAll number (depth + 1) es

end

/-! ## The generator -/

namespace Generator

variable {g g' : Generator}

@[simp]
theorem put_code (g : Generator) (i : Inst) : (g.put i).code.toList = g.code.toList ++ [i] := by
  simp [put]

@[simp]
theorem put_depth (g : Generator) (i : Inst) : (g.put i).depth = g.depth := rfl

@[simp]
theorem put_symbols (g : Generator) (i : Inst) : (g.put i).symbols = g.symbols := rfl

@[simp]
theorem putAll_code (g : Generator) (is : List Inst) :
    (g.putAll is).code.toList = g.code.toList ++ is := by
  induction is generalizing g with
  | nil => simp [putAll]
  | cons i is ih =>
    have h := ih (g.put i)
    rw [put_code, List.append_assoc] at h
    exact h

@[simp]
theorem putAll_depth (g : Generator) (is : List Inst) : (g.putAll is).depth = g.depth := by
  induction is generalizing g with
  | nil => rfl
  | cons i is ih => exact ih (g.put i)

@[simp]
theorem putAll_symbols (g : Generator) (is : List Inst) : (g.putAll is).symbols = g.symbols := by
  induction is generalizing g with
  | nil => rfl
  | cons i is ih => exact ih (g.put i)

@[simp]
theorem pushRax_code (g : Generator) : g.pushRax.code.toList = g.code.toList ++ [.pushRax] := by
  simp [pushRax]

@[simp]
theorem pushRax_depth (g : Generator) : g.pushRax.depth = g.depth + 1 := rfl

@[simp]
theorem pushRax_symbols (g : Generator) : g.pushRax.symbols = g.symbols := rfl

@[simp]
theorem popRax_code (g : Generator) : g.popRax.code.toList = g.code.toList ++ [.popRax] := by
  simp [popRax]

@[simp]
theorem popRax_depth (g : Generator) : g.popRax.depth = g.depth - 1 := rfl

@[simp]
theorem popRax_symbols (g : Generator) : g.popRax.symbols = g.symbols := rfl

@[simp]
theorem popArguments_code (g : Generator) (count : Nat) :
    (g.popArguments count).code.toList = g.code.toList ++ pops count := by
  induction count generalizing g with
  | zero => simp [popArguments, pops]
  | succ count ih => simp [popArguments, popXmm, pops, ih]

@[simp]
theorem popArguments_depth (g : Generator) (count : Nat) :
    (g.popArguments count).depth = g.depth - count := by
  induction count generalizing g with
  | zero => rfl
  | succ count ih =>
    simp only [popArguments, popXmm, ih, put_depth, popRax_depth]
    omega

@[simp]
theorem popArguments_symbols (g : Generator) (count : Nat) :
    (g.popArguments count).symbols = g.symbols := by
  induction count generalizing g with
  | zero => rfl
  | succ count ih => simp [popArguments, popXmm, ih]

/-- The call is aligned for the depth that is left when the arguments have been popped. -/
theorem callFunction_code (g : Generator) (id : SymbolId) {depth count : Nat}
    (hDepth : g.depth = depth + count) :
    (g.callFunction id count).code.toList =
      g.code.toList ++ (pops count ++ (alignedCall depth id ++ pushResult)) := by
  have hLeft : g.depth - count = depth := by omega
  unfold callFunction alignedCall
  simp only [popArguments_depth, hLeft]
  split_ifs <;> simp [pushXmm0, pushResult, callSymbol]

theorem callFunction_depth (g : Generator) (id : SymbolId) (count : Nat) :
    (g.callFunction id count).depth = g.depth - count + 1 := by
  unfold callFunction
  dsimp only
  split_ifs <;> simp [pushXmm0]

theorem callFunction_symbols (g : Generator) (id : SymbolId) (count : Nat) :
    (g.callFunction id count).symbols = g.symbols := by
  unfold callFunction
  dsimp only
  split_ifs <;> simp [pushXmm0]

end Generator

/-! ## The generator follows the tree -/

/-- From `g` to `g'` the generator has numbered `names`, emitted `code` and left `height` more words
on the stack. The code is that of any table that the numbering may still grow to. -/
structure Emits (g g' : Generator) (height : Nat) (names : List Reference)
    (code : (Symbol → SymbolId) → List Inst) : Prop where
  symbols : g.symbols.internAll (names.map Reference.symbol) = some g'.symbols
  depth : g'.depth = g.depth + height
  code : ∀ table : SymbolTable, g'.symbols.Grows table →
    g'.code.toList = g.code.toList ++ code table.number

namespace Emits

variable {g g₁ g₂ g' : Generator} {height height₁ height₂ : Nat}
  {names names₁ names₂ : List Reference} {code code₁ code₂ : (Symbol → SymbolId) → List Inst}

theorem refl (g : Generator) : Emits g g 0 [] (fun _ => []) :=
  ⟨rfl, rfl, by simp⟩

theorem valid (h : Emits g g' height names code) (hValid : g.symbols.Valid) : g'.symbols.Valid :=
  (SymbolTable.internAll_some hValid h.symbols).1

theorem trans (hValid : g₁.symbols.Valid) (h₁ : Emits g g₁ height₁ names₁ code₁)
    (h₂ : Emits g₁ g₂ height₂ names₂ code₂) :
    Emits g g₂ (height₁ + height₂) (names₁ ++ names₂)
      (fun number => code₁ number ++ code₂ number) where
  symbols := by
    rw [List.map_append, SymbolTable.internAll_append, h₁.symbols]
    exact h₂.symbols
  depth := by rw [h₂.depth, h₁.depth, Nat.add_assoc]
  code table hTable := by
    have hGrows := (SymbolTable.internAll_some hValid h₂.symbols).2.1
    rw [h₂.code table hTable, h₁.code table (hGrows.trans hTable), List.append_assoc]

/-- Instructions after those of `h` that number no further symbol. -/
theorem append (h : Emits g g₁ height₁ names code) (more : (Symbol → SymbolId) → List Inst)
    (hSymbols : g'.symbols = g₁.symbols) (hDepth : g'.depth = g.depth + height)
    (hCode : ∀ table : SymbolTable, g₁.symbols.Grows table →
      g'.code.toList = g₁.code.toList ++ more table.number) :
    Emits g g' height names (fun number => code number ++ more number) where
  symbols := by rw [h.symbols, hSymbols]
  depth := hDepth
  code table hTable := by
    rw [hSymbols] at hTable
    rw [hCode table hTable, h.code table hTable, List.append_assoc]

theorem congr (h : Emits g g' height names code₁) (hCode : ∀ number, code₁ number = code₂ number) :
    Emits g g' height names code₂ :=
  funext hCode ▸ h

/-- Numbering a symbol emits nothing. -/
theorem number {span : Span} (name : Reference) {id : SymbolId} (hValid : g.symbols.Valid)
    (h : g.number span name.symbol = .ok (id, g')) :
    Emits g g' 0 [name] (fun _ => []) ∧
      ∀ table : SymbolTable, g'.symbols.Grows table → table.number name.symbol = id := by
  unfold Generator.number at h
  split at h
  · cases h
  · rename_i new symbols hIntern
    cases h
    refine ⟨⟨SymbolTable.internAll_singleton hIntern, rfl, by simp⟩, ?_⟩
    intro table hTable
    exact SymbolTable.number_eq (hTable.id? _ _ (SymbolTable.intern_some hValid hIntern).2.2)

end Emits

mutual

/-- The generator appends the instructions of the expression. -/
theorem emit_lower : ∀ (e : Expr) {g g' : Generator}, g.symbols.Valid → g.emit e = .ok g' →
    Emits g g' 1 e.references (fun number => lower number g.depth e)
  | .number _ value, g, g', _, h => by
    cases h
    exact (Emits.refl g).append _ rfl rfl (by simp)
  | .var span name, g, g', hValid, h => by
    rw [Generator.emit] at h
    obtain ⟨⟨id, g₁⟩, hNumber, h⟩ := Except.bind_eq_ok_iff.mp h
    cases h
    obtain ⟨hEmits, hId⟩ := Emits.number (.var name) hValid hNumber
    refine hEmits.append (lower · g.depth (.var span name)) (by simp) (by simp [hEmits.depth]) ?_
    intro table hTable
    have hId : table.number (.ofVar name) = id := hId table hTable
    simp [lower, hId]
  | .call span name args, g, g', hValid, h => by
    rw [Generator.emit] at h
    split_ifs at h
    obtain ⟨g₁, hArgs, h⟩ := Except.bind_eq_ok_iff.mp h
    obtain ⟨⟨id, g₂⟩, hNumber, h⟩ := Except.bind_eq_ok_iff.mp h
    cases h
    have hArgs := emitAll_lower args hValid hArgs
    have hValid₁ := hArgs.valid hValid
    obtain ⟨hEmits, hId⟩ := Emits.number (.call ⟨name, args.length⟩) hValid₁ hNumber
    have hBoth := hArgs.trans hValid₁ hEmits
    have hDepth : g₂.depth = g.depth + args.length := hBoth.depth
    refine (hBoth.append (fun number => pops args.length ++ (alignedCall g.depth
      (number (.ofSignature ⟨name, args.length⟩)) ++ pushResult))
      (Generator.callFunction_symbols ..) ?_ ?_).congr (by simp [lower])
    · rw [Generator.callFunction_depth, hDepth, Nat.add_sub_cancel]
    · intro table hTable
      have hId : table.number (.ofSignature ⟨name, args.length⟩) = id := hId table hTable
      rw [Generator.callFunction_code g₂ id hDepth, hId]
  | .unary _ .neg operand, g, g', hValid, h => by
    rw [Generator.emit] at h
    obtain ⟨g₁, hOperand, h⟩ := Except.bind_eq_ok_iff.mp h
    cases h
    have hOperand := emit_lower operand hValid hOperand
    exact hOperand.append _ (by simp [Generator.popXmm, Generator.pushXmm0])
      (by simp [Generator.popXmm, Generator.pushXmm0, hOperand.depth])
      (by simp [Generator.popXmm, Generator.pushXmm0, pops, pushResult])
  | .unary _ .plus operand, g, g', hValid, h => emit_lower operand hValid h
  | .binary _ op left right, g, g', hValid, h => by
    rw [Generator.emit] at h
    obtain ⟨g₁, hLeft, h⟩ := Except.bind_eq_ok_iff.mp h
    obtain ⟨g₂, hRight, h⟩ := Except.bind_eq_ok_iff.mp h
    cases h
    have hLeft := emit_lower left hValid hLeft
    have hRight := emit_lower right (hLeft.valid hValid) hRight
    have hBoth := hLeft.trans (hLeft.valid hValid) hRight
    exact (hBoth.append (fun _ => pops 2 ++ (.ofBinary op :: pushResult))
      (by simp [Generator.popXmm, Generator.pushXmm0])
      (by simp [Generator.popXmm, Generator.pushXmm0, hBoth.depth])
      (by simp [Generator.popXmm, Generator.pushXmm0, pops, pushResult])).congr
      (by simp [lower, hLeft.depth])
  | .sequence _ first second, g, g', hValid, h => by
    rw [Generator.emit] at h
    obtain ⟨g₁, hFirst, h⟩ := Except.bind_eq_ok_iff.mp h
    have hFirst := emit_lower first hValid hFirst
    have hDepth : g₁.popRax.depth = g.depth := by simp [hFirst.depth]
    have hPop : Emits g g₁.popRax 0 first.references _ :=
      hFirst.append (fun _ => [.popRax]) rfl hDepth (by simp)
    have hPopped := hPop.valid hValid
    refine (hPop.trans hPopped (emit_lower second hPopped h)).congr ?_
    intro number
    rw [lower, hDepth, List.append_assoc]
    rfl

theorem emitAll_lower : ∀ (es : List Expr) {g g' : Generator}, g.symbols.Valid →
    g.emitAll es = .ok g' →
    Emits g g' es.length (Expr.referencesAll es) (fun number => lowerAll number g.depth es)
  | [], g, g', _, h => by
    cases h
    exact .refl g
  | e :: es, g, g', hValid, h => by
    simp only [Generator.emitAll] at h
    split at h
    · cases h
    · rename_i g₁ hHead
      have hHead := emit_lower e hValid hHead
      have hTail := emitAll_lower es (hHead.valid hValid) h
      have hAll : Emits g g' (1 + es.length) _ (fun number => lowerAll number g.depth (e :: es)) :=
        (hHead.trans (hHead.valid hValid) hTail).congr (by simp [lowerAll, hHead.depth])
      rwa [Nat.add_comm] at hAll

end

mutual

/-- The generator refuses calls with more arguments than there are registers. -/
theorem callsWithin_of_emit : ∀ (e : Expr) {g g' : Generator}, g.emit e = .ok g' →
    e.CallsWithin maxArity
  | .number _ _, _, _, _ => trivial
  | .var _ _, _, _, _ => trivial
  | .call _ name args, g, g', h => by
    rw [Generator.emit] at h
    split_ifs at h with hMany
    obtain ⟨g₁, hArgs, -⟩ := Except.bind_eq_ok_iff.mp h
    exact ⟨Nat.le_of_not_lt hMany, callsWithin_of_emitAll args hArgs⟩
  | .unary _ .neg operand, g, g', h => by
    rw [Generator.emit] at h
    obtain ⟨g₁, hOperand, -⟩ := Except.bind_eq_ok_iff.mp h
    exact callsWithin_of_emit operand hOperand
  | .unary _ .plus operand, g, g', h => callsWithin_of_emit operand h
  | .binary _ op left right, g, g', h => by
    rw [Generator.emit] at h
    obtain ⟨g₁, hLeft, h⟩ := Except.bind_eq_ok_iff.mp h
    obtain ⟨g₂, hRight, -⟩ := Except.bind_eq_ok_iff.mp h
    exact ⟨callsWithin_of_emit left hLeft, callsWithin_of_emit right hRight⟩
  | .sequence _ first second, g, g', h => by
    rw [Generator.emit] at h
    obtain ⟨g₁, hFirst, h⟩ := Except.bind_eq_ok_iff.mp h
    exact ⟨callsWithin_of_emit first hFirst, callsWithin_of_emit second h⟩

theorem callsWithin_of_emitAll : ∀ (es : List Expr) {g g' : Generator}, g.emitAll es = .ok g' →
    Expr.CallsWithinAll maxArity es
  | [], _, _, _ => trivial
  | e :: es, g, g', h => by
    simp only [Generator.emitAll] at h
    split at h
    · cases h
    · rename_i g₁ hHead
      exact ⟨callsWithin_of_emit e hHead, callsWithin_of_emitAll es h⟩

end

theorem number_isOk {g : Generator} {symbol : Symbol} (span : Span) {late : SymbolTable}
    (h : g.symbols.internAll [symbol] = some late) :
    ∃ id, g.number span symbol = .ok (id, ⟨late, g.code, g.depth⟩) := by
  obtain ⟨id, hIntern⟩ := SymbolTable.intern_of_internAll h
  exact ⟨id, by rw [Generator.number, hIntern]⟩

mutual

/-- An expression whose names can be numbered is accepted if all its arguments fit. -/
theorem emit_isOk : ∀ (e : Expr) {g : Generator} {late : SymbolTable}, e.CallsWithin maxArity →
    g.symbols.internAll (e.references.map Reference.symbol) = some late →
    ∃ g', g.emit e = .ok g' ∧ g'.symbols = late
  | .number _ _, g, late, _, h => ⟨_, rfl, Option.some.inj h⟩
  | .var span name, g, late, _, h => by
    obtain ⟨id, hNumber⟩ := number_isOk span h
    simp only [Generator.emit, bind, Except.bind, Reference.symbol] at hNumber ⊢
    rw [hNumber]
    exact ⟨_, rfl, by simp⟩
  | .call span name args, g, late, hArity, h => by
    obtain ⟨middle, hArgsNames, hName⟩ := SymbolTable.internAll_append_some h
    obtain ⟨g₁, hArgs, rfl⟩ := emitAll_isOk args hArity.2 hArgsNames
    obtain ⟨id, hNumber⟩ := number_isOk span hName
    simp only [Reference.symbol] at hNumber
    simp only [Generator.emit, if_neg (Nat.not_lt.mpr hArity.1), bind, Except.bind, hArgs, hNumber]
    exact ⟨_, rfl, Generator.callFunction_symbols ..⟩
  | .unary _ .neg operand, g, late, hArity, h => by
    obtain ⟨g₁, hOperand, hSymbols⟩ := emit_isOk operand hArity h
    simp only [Generator.emit, bind, Except.bind, hOperand]
    exact ⟨_, rfl, by simp [Generator.popXmm, Generator.pushXmm0, hSymbols]⟩
  | .unary _ .plus operand, g, late, hArity, h => emit_isOk operand hArity h
  | .binary _ op left right, g, late, hArity, h => by
    obtain ⟨middle, hLeftNames, hRightNames⟩ := SymbolTable.internAll_append_some h
    obtain ⟨g₁, hLeft, rfl⟩ := emit_isOk left hArity.1 hLeftNames
    obtain ⟨g₂, hRight, rfl⟩ := emit_isOk right hArity.2 hRightNames
    simp only [Generator.emit, bind, Except.bind, hLeft, hRight]
    exact ⟨_, rfl, by simp [Generator.popXmm, Generator.pushXmm0]⟩
  | .sequence _ first second, g, late, hArity, h => by
    obtain ⟨middle, hFirstNames, hSecond⟩ := SymbolTable.internAll_append_some h
    obtain ⟨g₁, hFirst, rfl⟩ := emit_isOk first hArity.1 hFirstNames
    simp only [Generator.emit, bind, Except.bind, hFirst]
    exact emit_isOk second hArity.2 hSecond

theorem emitAll_isOk : ∀ (es : List Expr) {g : Generator} {late : SymbolTable},
    Expr.CallsWithinAll maxArity es →
    g.symbols.internAll ((Expr.referencesAll es).map Reference.symbol) = some late →
    ∃ g', g.emitAll es = .ok g' ∧ g'.symbols = late
  | [], g, late, _, h => ⟨g, rfl, Option.some.inj h⟩
  | e :: es, g, late, hArity, h => by
    obtain ⟨middle, hHeadNames, hTail⟩ := SymbolTable.internAll_append_some h
    obtain ⟨g₁, hHead, rfl⟩ := emit_isOk e hArity.1 hHeadNames
    simp only [Generator.emitAll, hHead]
    exact emitAll_isOk es hArity.2 hTail

end

/-- The code of a whole expression: its value is popped into `xmm0` and returned. -/
theorem ofExpr?_ok {e : Expr} {emitted : Emitted} (h : ofExpr? e = .ok emitted) :
    e.CallsWithin maxArity ∧
      SymbolTable.empty.internAll (e.references.map Reference.symbol) = some emitted.symbols ∧
      emitted.code = lower emitted.symbols.number 0 e ++ (pops 1 ++ [.ret]) := by
  obtain ⟨g, hEmit, h⟩ := Except.bind_eq_ok_iff.mp h
  cases h
  have hArity := callsWithin_of_emit e hEmit
  have hEmit := emit_lower e SymbolTable.valid_empty hEmit
  refine ⟨hArity, hEmit.symbols, ?_⟩
  simp [Generator.popXmm, pops, hEmit.code _ (.refl _), Generator.empty]

/-- Native code is generated exactly for expressions whose names and arguments fit. -/
theorem ofExpr?_isOk {e : Expr} {late : SymbolTable} (hArity : e.CallsWithin maxArity)
    (h : SymbolTable.empty.internAll (e.references.map Reference.symbol) = some late) :
    ∃ emitted, ofExpr? e = .ok emitted ∧ emitted.symbols = late := by
  obtain ⟨g, hEmit, rfl⟩ := emit_isOk e (g := .empty) hArity h
  simp only [ofExpr?, bind, Except.bind, hEmit]
  exact ⟨_, rfl, by simp [Generator.popXmm]⟩

end Formula.Native
