import Formula.Context.Linking
import Formula.Proofs.Computation
import Formula.Proofs.SymbolTable

/-!
# Bindings

Linking binds the symbols of an object in turn (`linkObject?_eq_ok_iff`), so the binding of a symbol
stands at its number (`binding_of_get?`). What has been linked against a context would be linked
alike against any context that `Extends` it.
-/

namespace Formula

namespace Context

theorem getElem?_insert {β : Type} (m : Std.TreeMap String β) (key other : String) (value : β) :
    (m.insert key value)[other]? = if key = other then some value else m[other]? := by
  rw [Std.TreeMap.getElem?_insert]
  simp only [Std.compare_eq_iff_eq]

@[simp]
theorem setVar_vars (context : Context) (name other : String) (cell : Cell) :
    (context.setVar name cell).vars[other]? =
      if name = other then some cell else context.vars[other]? :=
  getElem?_insert ..

@[simp]
theorem setFunction_functions (context : Context) (symbol other : String) (f : Function) :
    (context.setFunction symbol f).functions[other]? =
      if symbol = other then some f else context.functions[other]? :=
  getElem?_insert ..

@[simp]
theorem setProgram_program? (context : Context) (name other : String) (p : Program) :
    (context.setProgram name p).program? other =
      if name = other then some p else context.program? other :=
  getElem?_insert ..

/-- The linked code of a sub-program. -/
def ready? (context : Context) (name : String) : Option Linked :=
  (context.program? name).bind fun p => p.state.linked?

/-- A later context has all bindings of an earlier one. -/
structure Extends (early late : Context) : Prop where
  config : late.config = early.config
  backend : late.backend = early.backend
  var : ∀ (name : String) (cell : Cell), early.vars[name]? = some cell →
    late.vars[name]? = some cell
  function : ∀ (symbol : String) (f : Function), early.functions[symbol]? = some f →
    late.functions[symbol]? = some f
  ready : ∀ name linked, early.ready? name = some linked → late.ready? name = some linked

variable {early late : Context}

theorem Extends.trans {middle : Context} (h : early.Extends middle) (h' : middle.Extends late) :
    early.Extends late where
  config := h'.config.trans h.config
  backend := h'.backend.trans h.backend
  var name cell hVar := h'.var name cell (h.var name cell hVar)
  function symbol f hFunction := h'.function symbol f (h.function symbol f hFunction)
  ready name linked hReady := h'.ready name linked (h.ready name linked hReady)

theorem Extends.binding? (h : early.Extends late) {symbol : Symbol} {b : Binding}
    (hBinding : early.binding? symbol = .ok b) : late.binding? symbol = .ok b := by
  unfold Context.binding? at hBinding ⊢
  split at hBinding
  · split at hBinding
    · rename_i cell hVar
      rw [h.var _ _ hVar]
      exact hBinding
    · cases hBinding
  · split at hBinding
    · cases hBinding
    · rename_i hFunction
      rw [h.function _ _ hFunction]
      exact hBinding
    · rename_i hFunction
      rw [h.function _ _ hFunction]
      exact hBinding
    · rename_i name hFunction
      rw [h.function _ _ hFunction]
      split at hBinding
      · rename_i linked hReady
        have hLate := h.ready _ _ hReady
        unfold ready? at hLate
        simp only [hLate]
        exact hBinding
      · cases hBinding

theorem Extends.bindings? (h : early.Extends late) {symbols : SymbolTable} {bindings : List Binding}
    (hBindings : early.bindings? symbols = .ok bindings) :
    late.bindings? symbols = .ok bindings := by
  rw [Context.bindings?, Except.mapM_eq_ok_iff] at hBindings ⊢
  exact hBindings.imp fun symbol b hBinding => h.binding? hBinding

theorem linkObject?_eq_ok_iff {context : Context} {object : Object} {linked : Linked} :
    context.linkObject? object = .ok linked ↔
      context.bindings? object.symbols = .ok linked.bindings ∧
        object.image? linked.bindings = .ok linked.image := by
  obtain ⟨image, bindings⟩ := linked
  rw [linkObject?, Except.bind_eq_ok_iff]
  constructor
  · rintro ⟨found, hFound, h⟩
    obtain ⟨image', hImage, h⟩ := Except.bind_eq_ok_iff.mp h
    cases h
    exact ⟨hFound, hImage⟩
  · rintro ⟨hBindings, hImage⟩
    exact ⟨bindings, hBindings, Except.bind_eq_ok_iff.mpr ⟨image, hImage, rfl⟩⟩

/-- What can be linked stays linked as it is. -/
theorem Extends.linkObject? (h : early.Extends late) {object : Object} {linked : Linked}
    (hLinked : early.linkObject? object = .ok linked) : late.linkObject? object = .ok linked := by
  rw [linkObject?_eq_ok_iff] at hLinked ⊢
  exact ⟨h.bindings? hLinked.1, hLinked.2⟩

/-- The binding of a symbol stands at its number. -/
theorem binding_of_get? {context : Context} {symbols : SymbolTable} {bindings : List Binding}
    (h : context.bindings? symbols = .ok bindings) {id : SymbolId} {symbol : Symbol}
    (hId : symbols.get? id = some symbol) :
    ∃ b, bindings[id.toNat]? = some b ∧ context.binding? symbol = .ok b := by
  rw [Context.bindings?, Except.mapM_eq_ok_iff] at h
  obtain ⟨hLt, hGet⟩ := Array.getElem?_eq_some_iff.mp hId
  have hLength := h.length_eq
  have hLt' : id.toNat < bindings.length := hLength ▸ hLt
  refine ⟨bindings[id.toNat], List.getElem?_eq_getElem hLt', ?_⟩
  rw [← hGet]
  exact h.get hLt hLt'

/-- A table is bound if each of its symbols is. -/
theorem bindings?_isOk {context : Context} {symbols : SymbolTable}
    (h : ∀ symbol ∈ symbols.toList, ∃ b, context.binding? symbol = .ok b) :
    ∃ bindings, context.bindings? symbols = .ok bindings := by
  suffices general : ∀ list : List Symbol, (∀ symbol ∈ list, ∃ b, context.binding? symbol = .ok b) →
      ∃ bindings, List.Forall₂ (fun symbol b => context.binding? symbol = .ok b) list bindings by
    obtain ⟨bindings, hBindings⟩ := general symbols.toList h
    exact ⟨bindings, Except.mapM_eq_ok_iff.mpr hBindings⟩
  intro list
  induction list with
  | nil => exact fun _ => ⟨[], .nil⟩
  | cons symbol list ih =>
    intro hAll
    obtain ⟨b, hHead⟩ := hAll symbol (List.mem_cons_self ..)
    obtain ⟨bindings, hTail⟩ := ih fun other hOther => hAll other (List.mem_cons_of_mem _ hOther)
    exact ⟨b :: bindings, .cons hHead hTail⟩

end Context

end Formula
