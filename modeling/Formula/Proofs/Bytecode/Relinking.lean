import Formula.Proofs.Bytecode.Execution
import Formula.Proofs.Bytecode.Listing
import Formula.Proofs.Context.Lookup

/-!
# Bytecode before and after linking

Code generation, listing, linking and execution agree on where instructions begin
(`bytecode_in_step`): the bytes of an object are those of the instructions of its tree and of no
others, its relocations are their operands, the listing has one line for each of them, and for any
bindings of the right kinds linking gives the same instructions with addresses for operands, which
are executed one by one to the last byte.
-/

namespace Formula

open Bytecode

/-- Whether a binding is of the kind that a symbol names: a variable for a variable, and a function
for a function. -/
def Binding.Suits (symbol : Symbol) (b : Binding) : Prop :=
  symbol.kind = .var ↔ ∃ cell, b = .var cell

/-- The instruction with addresses for operands: that of the variable, or that of the function and
the word of its convention. -/
def Bytecode.Instr.linked (bindings : List Binding) (i : Instr SymbolId SymbolId) : LinkedInstr :=
  i.map SymbolId.address fun id =>
    (id.address, (bindings[id.toNat]?.getD default).convention.word)

namespace Object

/-- The bytes of an object are those of `code`, and its relocations are the operands there that
refer to symbols. -/
structure Tiled (object : Object) (code : Bytecode.Code) : Prop where
  splits : Instr.Splits object.bytes code
  length : ∀ i ∈ code, i.encode.length = 1 + i.operandWidth 2 2
  relocations : object.code.relocations =
    (Instr.withOffsets 0 code).filterMap fun (place, i) => i.relocation? place
  ordered : object.code.relocations.Pairwise fun r s => r.offset + 2 ≤ s.offset
  stored : ∀ r ∈ object.code.relocations,
    Packed.unpack? (object.bytes.drop r.offset) =
      some (r.symbol, object.bytes.drop (r.offset + 2))
  kinds : ∀ i ∈ code, i.Refers (fun id => ∃ name, object.symbols.get? id = some ⟨name, .var⟩)
    (fun id => ∃ name arity, object.symbols.get? id = some ⟨name, .function arity⟩)

/-- Linking the object cuts nothing outside of its bytes and gives `bytes`, which are those of the
instructions of `code` with addresses for operands and are executed instruction by instruction. -/
structure Relinked (object : Object) (code : Bytecode.Code) (bindings : List Binding)
    (bytes : List UInt8) : Prop where
  image : object.image? bindings = .ok (.bytecode bytes)
  inside : Bytecode.Code.relocateFrom? (fun id => bindings[id.toNat]?.map (·.operand id.address))
    object.bytes 0 object.code.relocations = some bytes
  splits : Instr.Splits bytes (code.map (Instr.linked bindings))
  length : ∀ i ∈ code, (i.linked bindings).encode.length = 1 + i.operandWidth 8 16
  execute : ∀ {σ : Type} (callees : Array (Callee σ)),
    Run.execute callees bytes = Run.exec callees (code.map (Instr.linked bindings))

variable {e : Expr} {object : Object}

theorem get?_number (h : bytecodeOfExpr? e = .ok object) :
    ∀ name ∈ e.references,
      object.symbols.get? (object.symbols.number name.symbol) = some name.symbol := by
  obtain ⟨hValid, -, hKnows, -⟩ :=
    SymbolTable.internAll_some SymbolTable.valid_empty (symbols_bytecode h).1
  exact fun name hName => hValid.get?_number (hKnows _ (List.mem_map_of_mem hName))

theorem tiled_numbered (h : bytecodeOfExpr? e = .ok object) :
    object.Tiled (numbered object.symbols.number e) := by
  have hCode := (symbols_bytecode h).2
  have hBytes : object.bytes = Bytecode.Code.bytes (numbered object.symbols.number e) := by
    rw [bytes, hCode]
    rfl
  have hRelocations : object.code.relocations =
      Bytecode.Code.relocations (numbered object.symbols.number e) := by
    rw [hCode]
    rfl
  have hNames := get?_number h
  have hWidth : Packed.width SymbolId = 2 := rfl
  refine ⟨?_, fun i _ => i.length_encode, ?_, ?_, ?_, ?_⟩
  · rw [hBytes]
    exact Instr.splits_encode _
  · rw [hRelocations]
    exact Bytecode.Code.relocations_eq_filterMap _
  · have hOrdered := Bytecode.Code.pairwise_relocationsFrom (numbered object.symbols.number e) 0
    rw [← Bytecode.Code.relocations_eq, ← hRelocations, hWidth] at hOrdered
    exact hOrdered
  · intro r hMem
    rw [hRelocations] at hMem
    have hStored := Bytecode.Code.unpack?_of_mem_relocations hMem
    rw [← hBytes, hWidth] at hStored
    exact hStored
  · refine refers_numbered e (fun name hName => ?_) (fun signature hName => ?_)
    · exact ⟨name, hNames (.var name) hName⟩
    · exact ⟨signature.symbol, signature.arity, hNames (.call signature) hName⟩

/-- The lines of a listing have no other line breaks than names have. -/
theorem oneLine_of_mem_listingLines {number : Symbol → SymbolId}
    (hNames : ∀ name ∈ e.references, Text.OneLine name.symbol.name) {line : String}
    (h : line ∈ listingLines number e) : Text.OneLine line := by
  obtain ⟨⟨place, i⟩, hMem, rfl⟩ := List.mem_map.mp h
  exact oneLine_listingLine number place (refers_named hNames i (List.of_mem_zip hMem).2)

/-! ## Linking -/

variable {bindings : List Binding}

/-- A binding of the right kind stands where a number leads. -/
theorem suits_of_get? (h : List.Forall₂ Binding.Suits object.symbols.toList bindings)
    {id : SymbolId} {symbol : Symbol} (hGet : object.symbols.get? id = some symbol) :
    ∃ b, bindings[id.toNat]? = some b ∧ b.Suits symbol := by
  obtain ⟨hLt, hEntry⟩ := Array.getElem?_eq_some_iff.mp hGet
  have hBound : id.toNat < bindings.length := h.length_eq ▸ hLt
  have hSuits := h.get hLt hBound
  rw [List.get_eq_getElem, List.get_eq_getElem] at hSuits
  refine ⟨bindings[id.toNat], List.getElem?_eq_getElem hBound, ?_⟩
  rw [← hEntry]
  exact hSuits

/-- The operand for an instruction is that of the linked instruction. -/
theorem refers_operand (h : List.Forall₂ Binding.Suits object.symbols.toList bindings)
    {i : Instr SymbolId SymbolId}
    (hKinds : i.Refers (fun id => ∃ name, object.symbols.get? id = some ⟨name, .var⟩)
      (fun id => ∃ name arity, object.symbols.get? id = some ⟨name, .function arity⟩)) :
    i.Refers (fun id => ((bindings.toArray[id.toNat]?.getD default).operand id.address =
        Packed.pack id.address))
      (fun id => ((bindings.toArray[id.toNat]?.getD default).operand id.address =
        Packed.pack (id.address, (bindings[id.toNat]?.getD default).convention.word))) := by
  cases i with
  | loadVar id =>
    obtain ⟨name, hGet⟩ := hKinds
    obtain ⟨b, hBound, hSuits⟩ := suits_of_get? h hGet
    obtain ⟨cell, rfl⟩ := hSuits.mp rfl
    show (bindings.toArray[id.toNat]?.getD default).operand id.address = _
    rw [List.getElem?_toArray, hBound]
    rfl
  | invoke id =>
    obtain ⟨name, arity, hGet⟩ := hKinds
    obtain ⟨b, hBound, hSuits⟩ := suits_of_get? h hGet
    show (bindings.toArray[id.toNat]?.getD default).operand id.address = _
    rw [List.getElem?_toArray, hBound, Option.getD_some]
    cases b with
    | var cell => cases hSuits.mpr ⟨cell, rfl⟩
    | builtin | host | program => rfl
  | pushConst | binary | neg | discard => trivial

theorem exists_symbol_of_symbol? {i : Instr SymbolId SymbolId} {id : SymbolId}
    (hKinds : i.Refers (fun id => ∃ name, object.symbols.get? id = some ⟨name, .var⟩)
      (fun id => ∃ name arity, object.symbols.get? id = some ⟨name, .function arity⟩))
    (h : i.symbol? = some id) : ∃ symbol, object.symbols.get? id = some symbol := by
  cases i with
  | loadVar =>
    cases h
    obtain ⟨name, hGet⟩ := hKinds
    exact ⟨_, hGet⟩
  | invoke =>
    cases h
    obtain ⟨name, arity, hGet⟩ := hKinds
    exact ⟨_, hGet⟩
  | pushConst | binary | neg | discard => cases h

/-- Linking gives the instructions of the tree with addresses for operands. -/
theorem relinked_numbered (h : bytecodeOfExpr? e = .ok object)
    (hBindings : List.Forall₂ Binding.Suits object.symbols.toList bindings) :
    object.Relinked (numbered object.symbols.number e) bindings
      (((numbered object.symbols.number e).map (Instr.linked bindings)).flatMap Instr.encode) := by
  have hCode := (symbols_bytecode h).2
  have hTiled := tiled_numbered h
  -- from here on it does not matter which tree the code is of
  generalize numbered object.symbols.number e = code at hCode hTiled ⊢
  let operand (id : SymbolId) := (bindings.toArray[id.toNat]?.getD default).operand id.address
  have hBytes : Bytecode.Code.relocate operand code.relocations code.bytes =
      (code.map (Instr.linked bindings)).flatMap Instr.encode :=
    Bytecode.Code.relocate_eq_encode fun i hMem => refers_operand hBindings (hTiled.kinds i hMem)
  have hOperand : ∀ r ∈ code.relocations,
      bindings[r.symbol.toNat]?.map (·.operand r.symbol.address) = some (operand r.symbol) := by
    intro r hMem
    obtain ⟨i, hInstr, hSymbol⟩ := Bytecode.Code.exists_symbol?_of_mem_relocations hMem
    obtain ⟨symbol, hGet⟩ := exists_symbol_of_symbol? (hTiled.kinds i hInstr) hSymbol
    obtain ⟨b, hBound, -⟩ := suits_of_get? hBindings hGet
    have hArray : bindings.toArray[r.symbol.toNat]? = some b := by
      rw [List.getElem?_toArray, hBound]
    rw [hBound, Option.map_some]
    show some (b.operand _) = some ((bindings.toArray[r.symbol.toNat]?.getD default).operand _)
    rw [hArray, Option.getD_some]
  refine ⟨?_, ?_, Instr.splits_encode _, fun i _ => ?_, fun callees => Run.execute_encode _⟩
  · rw [image?, hCode, ← hBytes]
  · rw [bytes, hCode, ← hBytes]
    exact Bytecode.Code.relocateFrom?_bytes code hOperand
  · have hLength := (i.linked bindings).length_encode
    cases i <;> exact hLength

/-- Bytecode splits into instructions in one way, which is the order of evaluation of the tree; its
listing has one line for each of them, broken nowhere else unless a name is; and linking replaces
the operands that refer to symbols and moves nothing else, so that exactly these instructions are
executed. -/
theorem bytecode_in_step (h : bytecodeOfExpr? e = .ok object) :
    ∃ code : Bytecode.Code,
      code = (named e).map (Instr.map object.symbols.number object.symbols.number) ∧
      object.Tiled code ∧
      object.disassemble = String.join ((listingLines object.symbols.number e).map (· ++ "\n")) ∧
      ((∀ name ∈ e.references, Text.OneLine name.symbol.name) →
        ∀ line ∈ listingLines object.symbols.number e, Text.OneLine line) ∧
      ∀ bindings, List.Forall₂ Binding.Suits object.symbols.toList bindings →
        ∃ bytes, object.Relinked code bindings bytes := by
  refine ⟨numbered object.symbols.number e, numbered_eq_map _ e, tiled_numbered h, ?_,
    fun hNames line => oneLine_of_mem_listingLines hNames,
    fun bindings hBindings => ⟨_, relinked_numbered h hBindings⟩⟩
  rw [disassemble, (symbols_bytecode h).2]
  exact listing_numbered (get?_number h)

/-! ## An example -/

theorem number_negatedCall : ∃ object, bytecodeOfExpr? negatedCall = .ok object ∧
    object.symbols.toList = [.ofVar "x", .ofSignature ⟨"f", 1⟩] ∧
    object.symbols.number (.ofVar "x") = 0 ∧
    object.symbols.number (.ofSignature ⟨"f", 1⟩) = 1 := by
  obtain ⟨emitted, hEmitted, hEntries⟩ := ofExpr?_negatedCall
  have hNames := (Native.ofExpr?_ok hEmitted).2.1
  obtain ⟨object, hObject, hSymbols⟩ := ofExpr?_isOk .interpreted true nofun hNames
  have hValid := (SymbolTable.internAll_some SymbolTable.valid_empty hNames).1
  have hNumber {id : SymbolId} {symbol : Symbol} (h : emitted.symbols.get? id = some symbol) :
      object.symbols.number symbol = id := by
    rw [hSymbols]
    exact SymbolTable.number_eq ((hValid.id?_iff _ _).mpr h)
  refine ⟨object, hObject, ?_, hNumber ?_, hNumber ?_⟩
  · rw [hSymbols, SymbolTable.toList, hEntries]
  · rw [SymbolTable.get?, hEntries]
    rfl
  · rw [SymbolTable.get?, hEntries]
    rfl

/-- The code of `-f(x)`, its listing, and the code linked with a variable and a function of the
host. -/
theorem bytecode_negatedCall : ∃ object, bytecodeOfExpr? negatedCall = .ok object ∧
    object.bytes = [2, 0, 0, 3, 1, 0, 8] ∧
    object.disassemble = "0000  LOAD_VAR #0 x\n0003  INVOKE #1 _Z1fd\n0006  NEG\n" ∧
    object.image? [.var 3, .host ⟨.native, 1, 7⟩] = .ok (.bytecode
      ([2, 0, 0, 0, 0, 0, 0, 0, 0] ++
        ([3, 1, 0, 0, 0, 0, 0, 0, 0, 2, 0, 0, 0, 0, 0, 0, 0] ++ [8]))) := by
  obtain ⟨object, hObject, hTable, hX, hF⟩ := number_negatedCall
  obtain ⟨code, hCode, hTiled, hListing, -, hLinked⟩ := bytecode_in_step hObject
  have hInstrs : code = [.loadVar 0, .invoke 1, .neg] := by
    rw [hCode]
    show [Instr.loadVar (object.symbols.number (.ofVar "x")),
      Instr.invoke (object.symbols.number (.ofSignature ⟨"f", 1⟩)), Instr.neg] = _
    rw [hX, hF]
  subst hInstrs
  have hLines : listingLines object.symbols.number negatedCall =
      ["0000  LOAD_VAR #0 x", "0003  INVOKE #1 _Z1fd", "0006  NEG"] := by
    show [listingLine object.symbols.number 0 (.loadVar (.ofVar "x")),
      listingLine object.symbols.number 3 (.invoke (.ofSignature ⟨"f", 1⟩)),
      listingLine object.symbols.number 6 .neg] = _
    simp only [listingLine, Instr.printed, hX, hF]
    decide
  have hSuits : List.Forall₂ Binding.Suits object.symbols.toList
      [.var 3, .host ⟨.native, 1, 7⟩] := by
    rw [hTable]
    refine .cons ⟨fun _ => ⟨3, rfl⟩, fun _ => rfl⟩ (.cons ⟨?_, ?_⟩ .nil)
    · intro hVar
      cases hVar
    · rintro ⟨cell, hCell⟩
      cases hCell
  obtain ⟨bytes, hBytes⟩ := hLinked _ hSuits
  -- only one sequence of bytes splits into these instructions
  refine ⟨object, hObject, ((hTiled.splits.eq_iff _).mpr rfl).symm, ?_, ?_⟩
  · rw [hListing, hLines]
    decide
  · rw [hBytes.image, ← (hBytes.splits.eq_iff _).mpr rfl]
    rfl

end Object

end Formula
