import Formula.CompileError
import Formula.Proofs.LeftToRight
import Formula.Proofs.Signature
import Formula.Proofs.SymbolTable

/-!
# Numbering the names of an expression

`Expr.uses` lists the uses of names in an expression in order of evaluation, each with the span of
its node. Numbered in this order, they end with the distinct names in the order of their first uses,
or fail at the first use for which no number is left (`internUses_empty`). Different names have
different symbols (`Reference.symbol_injective`), so it is names that use up the numbers.
-/

namespace Formula

/-! ## Distinct elements in order -/

section EraseDups

variable {α : Type} [DecidableEq α]

theorem eraseDups_concat_of_mem {xs : List α} {x : α} (h : x ∈ xs) :
    (xs ++ [x]).eraseDups = xs.eraseDups := by
  rw [List.eraseDups_append]
  simp [List.removeAll, h]

theorem eraseDups_concat_of_not_mem {xs : List α} {x : α} (h : x ∉ xs) :
    (xs ++ [x]).eraseDups = xs.eraseDups ++ [x] := by
  rw [List.eraseDups_append]
  simp [List.removeAll, h, List.eraseDups_cons]

theorem nodup_eraseDups (xs : List α) : xs.eraseDups.Nodup := by
  induction xs using List.reverseRecOn with
  | nil => exact List.nodup_nil
  | append_singleton xs x ih =>
    by_cases h : x ∈ xs
    · rw [eraseDups_concat_of_mem h]
      exact ih
    · rw [eraseDups_concat_of_not_mem h]
      refine List.nodup_append.mpr ⟨ih, List.nodup_singleton x, ?_⟩
      rintro y hMem z hSame rfl
      rw [List.mem_singleton.mp hSame] at hMem
      exact h (List.mem_eraseDups.mp hMem)

theorem length_eraseDups (xs : List α) : xs.eraseDups.length = xs.toFinset.card := by
  rw [← List.toFinset_card_of_nodup (nodup_eraseDups xs)]
  congr 1
  ext x
  simp

end EraseDups

/-! ## Uses -/

/-- Different names have different symbols. -/
theorem Reference.symbol_injective : Function.Injective Reference.symbol := by
  intro reference other h
  cases reference with
  | var name =>
    cases other with
    | var name' => exact congrArg Reference.var (congrArg Symbol.name h)
    | call signature => cases congrArg Symbol.kind h
  | call signature =>
    cases other with
    | var name => cases congrArg Symbol.kind h
    | call signature' =>
      have hSymbol : signature.symbol = signature'.symbol := congrArg Symbol.name h
      have hArity : signature.arity = signature'.arity :=
        SymbolKind.function.inj (congrArg Symbol.kind h)
      rw [Signature.eq_of_symbol_eq_of_near hSymbol (by omega) (by omega)]

namespace Expr

mutual

/-- The uses of names in order of evaluation, with the spans of their nodes. -/
def uses : Expr → List (Span × Reference)
  | .number _ _ => []
  | .var span name => [(span, .var name)]
  | .call span name args => usesAll args ++ [(span, .call ⟨name, args.length⟩)]
  | .unary _ _ operand => operand.uses
  | .binary _ _ left right => left.uses ++ right.uses
  | .sequence _ first second => first.uses ++ second.uses

/-- The uses of names in several expressions. -/
def usesAll : List Expr → List (Span × Reference)
  | [] => []
  | e :: es => e.uses ++ usesAll es

end

mutual

theorem map_snd_uses : ∀ e : Expr, e.uses.map Prod.snd = e.references
  | .number _ _ => rfl
  | .var _ _ => rfl
  | .call _ name args => by rw [uses, List.map_append, map_snd_usesAll args, references]; rfl
  | .unary _ _ operand => map_snd_uses operand
  | .binary _ _ left right => by
    rw [uses, List.map_append, map_snd_uses left, map_snd_uses right, references]
  | .sequence _ first second => by
    rw [uses, List.map_append, map_snd_uses first, map_snd_uses second, references]

theorem map_snd_usesAll : ∀ es : List Expr, (usesAll es).map Prod.snd = referencesAll es
  | [] => rfl
  | e :: es => by
    rw [usesAll, List.map_append, map_snd_uses e, map_snd_usesAll es, referencesAll]

end

end Expr

/-! ## Numbering uses -/

/-- Whether an error is that of the first use for which no number is left: before it, all numbers
have been given to other names. -/
def OutOfNumbers (uses : List (Span × Reference)) (error : CompileError) : Prop :=
  ∃ before span name after, uses = before ++ (span, name) :: after ∧
    (before.map Prod.snd).toFinset.card = SymbolTable.capacity ∧ name ∉ before.map Prod.snd ∧
    error = .ofLimit span .tooManySymbols

theorem OutOfNumbers.lt_card {uses : List (Span × Reference)} {error : CompileError}
    (h : OutOfNumbers uses error) :
    SymbolTable.capacity < (uses.map Prod.snd).toFinset.card := by
  obtain ⟨before, span, name, after, rfl, hCard, hNew, -⟩ := h
  rw [← hCard]
  apply Finset.card_lt_card
  refine Finset.ssubset_iff_of_subset ?_ |>.mpr ⟨name, ?_, ?_⟩
  · intro other hMem
    simp only [List.mem_toFinset, List.map_append, List.mem_append] at hMem ⊢
    exact .inl hMem
  · simp
  · simpa using hNew

namespace SymbolTable

/-- Numbers the names of uses in turn. -/
def internUses (table : SymbolTable) : List (Span × Reference) → Except CompileError SymbolTable
  | [] => .ok table
  | (span, name) :: uses =>
    match table.intern name.symbol with
    | (none, _) => .error (.ofLimit span .tooManySymbols)
    | (some _, table) => table.internUses uses

theorem internUses_append (table : SymbolTable) (uses more : List (Span × Reference)) :
    table.internUses (uses ++ more) = table.internUses uses >>= fun t => t.internUses more := by
  induction uses generalizing table with
  | nil => rfl
  | cons use uses ih =>
    simp only [List.cons_append, internUses]
    split
    · rfl
    · exact ih _

section Use

variable {table : SymbolTable} {span : Span} {name : Reference}

theorem internUses_known (hValid : table.Valid) (hKnown : name.symbol ∈ table.toList) :
    table.internUses [(span, name)] = .ok table := by
  obtain ⟨id, -, hIntern⟩ := hValid.intern_of_mem hKnown
  simp only [internUses, hIntern]

theorem internUses_new (hValid : table.Valid) (hNew : name.symbol ∉ table.toList)
    (hRoom : table.toList.length < capacity) : ∃ late,
      table.internUses [(span, name)] = .ok late ∧ late.Valid ∧
        late.toList = table.toList ++ [name.symbol] := by
  obtain ⟨late, hIntern, hLate, hEntries⟩ := hValid.intern_of_room hNew hRoom
  refine ⟨late, ?_, hLate, hEntries⟩
  simp only [internUses, hIntern]

theorem internUses_full (hValid : table.Valid) (hNew : name.symbol ∉ table.toList)
    (hFull : table.toList.length = capacity) :
    table.internUses [(span, name)] = .error (.ofLimit span .tooManySymbols) := by
  simp only [internUses, hValid.intern_of_full hNew hFull]

end Use

/-- Numbering gives the distinct names their numbers in the order of their first uses, unless there
are too many of them. -/
theorem internUses_empty (uses : List (Span × Reference)) :
    (∃ table, empty.internUses uses = .ok table ∧ table.Valid ∧
      table.toList = (uses.map Prod.snd).eraseDups.map Reference.symbol) ∨
    ∃ error, empty.internUses uses = .error error ∧ OutOfNumbers uses error := by
  induction uses using List.reverseRecOn with
  | nil => exact .inl ⟨empty, rfl, valid_empty, rfl⟩
  | append_singleton uses use ih =>
    obtain ⟨span, name⟩ := use
    rw [internUses_append, List.map_append]
    rcases ih with ⟨table, hOk, hValid, hTable⟩ | ⟨error, hError, hOut⟩
    · have hKnown : name.symbol ∈ table.toList ↔ name ∈ uses.map Prod.snd := by
        rw [hTable, List.mem_map_of_injective Reference.symbol_injective, List.mem_eraseDups]
      have hLength : table.toList.length = (uses.map Prod.snd).toFinset.card := by
        rw [hTable, List.length_map, length_eraseDups]
      rw [hOk]
      by_cases hOld : name ∈ uses.map Prod.snd
      · refine .inl ⟨table, internUses_known hValid (hKnown.mpr hOld), hValid, ?_⟩
        rw [hTable]
        exact congrArg _ (eraseDups_concat_of_mem hOld).symm
      · have hNew : name.symbol ∉ table.toList := mt hKnown.mp hOld
        by_cases hRoom : table.toList.length < capacity
        · obtain ⟨late, hLate, hLateValid, hLateTable⟩ :=
            @internUses_new table span name hValid hNew hRoom
          refine .inl ⟨late, hLate, hLateValid, ?_⟩
          rw [hLateTable, hTable]
          simp only [List.map_cons, List.map_nil]
          rw [eraseDups_concat_of_not_mem hOld, List.map_append]
          rfl
        · have hFull : table.toList.length = capacity :=
            Nat.le_antisymm hValid.size_le (Nat.le_of_not_lt hRoom)
          refine .inr ⟨_, internUses_full hValid hNew hFull, uses, span, name, [], rfl, ?_⟩
          exact ⟨hLength ▸ hFull, hOld, rfl⟩
    · rw [hError]
      obtain ⟨before, span', name', after, rfl, hFull⟩ := hOut
      exact .inr ⟨error, rfl, before, span', name', after ++ [(span, name)], by simp, hFull⟩

end SymbolTable

end Formula
