import Formula.Bytecode.Listing
import Formula.Proofs.Bytecode.Boundaries
import Formula.Proofs.Bytecode.Lowering
import Formula.Proofs.Text.Lines

/-!
# Listings of bytecode

The listing of the code of an expression has one line for each of its instructions, with the offset
of the instruction and the names of the tree (`listing_numbered`). It does not stop early, and it
has no other line breaks than those that end lines, unless a name has some
(`oneLine_listingLine`).
-/

namespace Formula.Bytecode

/-! ## Instructions with their names -/

/-- The instructions of an expression with the symbols themselves for operands: operands from left
to right, then the operation. -/
def named (e : Expr) : List (Instr Symbol Symbol) :=
  lower Symbol.ofVar Symbol.ofSignature e

section Map

variable {v v' f f' : Type} {var : String → v} {function : Signature → f} (g : v → v')
  (h : f → f')

mutual

theorem map_lower : ∀ e : Expr, (lower var function e).map (Instr.map g h) =
    lower (fun name => g (var name)) (fun signature => h (function signature)) e
  | .number _ _ => rfl
  | .var _ _ => rfl
  | .call _ _ args => by
    rw [lower, List.map_append, map_lowerAll args, lower]
    rfl
  | .unary _ .neg operand => by
    rw [lower, List.map_append, map_lower operand, lower]
    rfl
  | .unary _ .plus operand => map_lower operand
  | .binary _ _ left right => by
    rw [lower, List.map_append, List.map_append, map_lower left, map_lower right, lower]
    rfl
  | .sequence _ first second => by
    rw [lower, List.map_append, List.map_cons, map_lower first, map_lower second, lower]
    rfl

theorem map_lowerAll : ∀ es : List Expr, (lowerAll var function es).map (Instr.map g h) =
    lowerAll (fun name => g (var name)) (fun signature => h (function signature)) es
  | [] => rfl
  | e :: es => by
    rw [lowerAll, List.map_append, map_lower e, map_lowerAll es, lowerAll]

end

end Map

/-- Numbered instructions are those of the tree with numbers for symbols. -/
theorem numbered_eq_map (number : Symbol → SymbolId) (e : Expr) :
    numbered number e = (named e).map (Instr.map number number) :=
  (map_lower number number e).symm

section Refers

variable {v f : Type} {var : String → v} {function : Signature → f} {P : v → Prop} {Q : f → Prop}

/-- Whether the operand that stands for a name is as required. -/
def OperandOf (var : String → v) (function : Signature → f) (P : v → Prop) (Q : f → Prop) :
    Reference → Prop
  | .var name => P (var name)
  | .call signature => Q (function signature)

mutual

/-- What holds of the operands for all names of an expression holds in its instructions. -/
theorem refers_lower : ∀ (e : Expr), (∀ name ∈ e.references, OperandOf var function P Q name) →
    ∀ i ∈ lower var function e, i.Refers P Q
  | .number _ _, _ => List.forall_mem_singleton.mpr trivial
  | .var _ name, h => List.forall_mem_singleton.mpr (h (.var name) (List.mem_singleton.mpr rfl))
  | .call _ _ args, h => by
    obtain ⟨hArgs, hCall⟩ := List.forall_mem_append.mp h
    exact List.forall_mem_append.mpr ⟨refersAll_lower args hArgs,
      List.forall_mem_singleton.mpr (hCall _ (List.mem_singleton.mpr rfl))⟩
  | .unary _ .neg operand, h => List.forall_mem_append.mpr
      ⟨refers_lower operand h, List.forall_mem_singleton.mpr trivial⟩
  | .unary _ .plus operand, h => refers_lower operand h
  | .binary _ _ left right, h => by
    obtain ⟨hLeft, hRight⟩ := List.forall_mem_append.mp h
    exact List.forall_mem_append.mpr ⟨refers_lower left hLeft, List.forall_mem_append.mpr
      ⟨refers_lower right hRight, List.forall_mem_singleton.mpr trivial⟩⟩
  | .sequence _ first second, h => by
    obtain ⟨hFirst, hSecond⟩ := List.forall_mem_append.mp h
    exact List.forall_mem_append.mpr ⟨refers_lower first hFirst,
      List.forall_mem_cons.mpr ⟨trivial, refers_lower second hSecond⟩⟩

theorem refersAll_lower : ∀ (es : List Expr),
    (∀ name ∈ Expr.referencesAll es, OperandOf var function P Q name) →
    ∀ i ∈ lowerAll var function es, i.Refers P Q
  | [], _ => nofun
  | e :: es, h => by
    obtain ⟨hHead, hTail⟩ := List.forall_mem_append.mp h
    exact List.forall_mem_append.mpr ⟨refers_lower e hHead, refersAll_lower es hTail⟩

end

end Refers

theorem refers_numbered {P Q : SymbolId → Prop} {number : Symbol → SymbolId} (e : Expr)
    (hVar : ∀ name, .var name ∈ e.references → P (number (.ofVar name)))
    (hFunction : ∀ signature, .call signature ∈ e.references →
      Q (number (.ofSignature signature))) :
    ∀ i ∈ numbered number e, i.Refers P Q := by
  refine refers_lower e fun name hName => ?_
  cases name with
  | var name => exact hVar name hName
  | call signature => exact hFunction signature hName

/-- What holds of the symbols of all names holds in the instructions. -/
theorem refers_named {P : Symbol → Prop} {e : Expr} (h : ∀ name ∈ e.references, P name.symbol) :
    ∀ i ∈ named e, i.Refers P P := by
  refine refers_lower e fun name hName => ?_
  cases name with
  | var | call => exact h _ hName

/-! ## Lines -/

/-- An instruction with the numbers and names of its symbols. -/
def Instr.printed (number : Symbol → SymbolId) (i : Instr Symbol Symbol) : String :=
  match i with
  | .pushConst value => "PUSH_CONST " ++ plain value.toFloat
  | .loadVar symbol => "LOAD_VAR #" ++ toString (number symbol).toNat ++ " " ++ symbol.name
  | .invoke symbol => "INVOKE #" ++ toString (number symbol).toNat ++ " " ++ symbol.name
  | .binary .add => "ADD"
  | .binary .sub => "SUB"
  | .binary .mul => "MUL"
  | .binary .div => "DIV"
  | .neg => "NEG"
  | .discard => "DISCARD"

/-- The line of an instruction: its offset, two spaces, and the instruction. -/
def listingLine (number : Symbol → SymbolId) (place : Nat) (i : Instr Symbol Symbol) : String :=
  Hex.padded 4 place ++ "  " ++ i.printed number

/-- The lines of the instructions of an expression. -/
def listingLines (number : Symbol → SymbolId) (e : Expr) : List String :=
  (((Instr.withOffsets 0 (numbered number e)).map Prod.fst).zip (named e)).map
    fun (place, i) => listingLine number place i

theorem Instr.text_map {symbols : SymbolTable} {i : Instr Symbol Symbol}
    (h : i.Refers (fun symbol => symbols.get? (symbols.number symbol) = some symbol)
      (fun symbol => symbols.get? (symbols.number symbol) = some symbol)) :
    (i.map symbols.number symbols.number).text symbols = i.printed symbols.number := by
  cases i with
  | pushConst value => rfl
  | loadVar symbol | invoke symbol =>
    have hName : symbols.get? (symbols.number symbol) = some symbol := h
    simp only [map, text, symbolText, hName, Option.map_some, Option.getD_some, printed,
      ← String.append_assoc]
    rfl
  | binary op => cases op <;> rfl
  | neg => rfl
  | discard => rfl

/-- Lines of instructions with numbers are those of the instructions with names. -/
theorem map_text_withOffsets {symbols : SymbolTable} (is : List (Instr Symbol Symbol))
    (h : ∀ i ∈ is, i.Refers (fun symbol => symbols.get? (symbols.number symbol) = some symbol)
      (fun symbol => symbols.get? (symbols.number symbol) = some symbol)) :
    ∀ offset, (Instr.withOffsets offset (is.map (Instr.map symbols.number symbols.number))).map
        (fun (place, i) => listingOffset place ++ i.text symbols ++ "\n") =
      ((((Instr.withOffsets offset (is.map (Instr.map symbols.number symbols.number))).map
        Prod.fst).zip is).map fun (place, i) => listingLine symbols.number place i).map
          (· ++ "\n") := by
  induction is with
  | nil => exact fun _ => rfl
  | cons i is ih =>
    intro offset
    obtain ⟨hHead, hTail⟩ := List.forall_mem_cons.mp h
    simp only [List.map_cons, Instr.withOffsets, List.zip_cons_cons, ih hTail,
      Instr.text_map hHead]
    rfl

/-- The listing of the code of an expression. -/
theorem listing_numbered {symbols : SymbolTable} {e : Expr}
    (h : ∀ name ∈ e.references, symbols.get? (symbols.number name.symbol) = some name.symbol) :
    listing symbols (Code.bytes (numbered symbols.number e)) =
      String.join ((listingLines symbols.number e).map (· ++ "\n")) := by
  have hLines := map_text_withOffsets (named e) (refers_named h) 0
  rw [listing, Code.bytes, Instr.decodeAll_encode, listingLines, numbered_eq_map]
  exact (String.append_empty ..).trans (congrArg String.join hLines)

/-- Only names can break a line of a listing. -/
theorem oneLine_listingLine (number : Symbol → SymbolId) (place : Nat) {i : Instr Symbol Symbol}
    (h : i.Refers (fun symbol => Text.OneLine symbol.name)
      (fun symbol => Text.OneLine symbol.name)) :
    Text.OneLine (listingLine number place i) := by
  have hOffset : Text.OneLine (Hex.padded 4 place ++ "  ") :=
    Text.oneLine_append (Text.oneLine_padded 4 place) (by decide)
  refine Text.oneLine_append hOffset ?_
  cases i with
  | pushConst value =>
    have hMnemonic : Text.OneLine "PUSH_CONST " := by decide
    exact Text.oneLine_append hMnemonic (Text.oneLine_plain _)
  | loadVar symbol =>
    have hMnemonic : Text.OneLine "LOAD_VAR #" := by decide
    have hNumber := Text.oneLine_append hMnemonic (Text.oneLine_toString (number symbol).toNat)
    exact Text.oneLine_append (Text.oneLine_append hNumber (by decide)) h
  | invoke symbol =>
    have hMnemonic : Text.OneLine "INVOKE #" := by decide
    have hNumber := Text.oneLine_append hMnemonic (Text.oneLine_toString (number symbol).toNat)
    exact Text.oneLine_append (Text.oneLine_append hNumber (by decide)) h
  | binary op =>
    cases op with
    | add => exact (by decide : Text.OneLine "ADD")
    | sub => exact (by decide : Text.OneLine "SUB")
    | mul => exact (by decide : Text.OneLine "MUL")
    | div => exact (by decide : Text.OneLine "DIV")
  | neg => exact (by decide : Text.OneLine "NEG")
  | discard => exact (by decide : Text.OneLine "DISCARD")

end Formula.Bytecode
