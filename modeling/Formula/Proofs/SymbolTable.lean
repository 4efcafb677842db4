import Formula.Symbol.Table
import Mathlib.Tactic.SplitIfs

/-!
# Numbering symbols

A table is `Valid` when its map and its array of entries are inverse to each other; `intern` keeps
this and never renumbers (`intern_some`). `Grows` orders the tables that a generator passes through,
so that code emitted early can be read with the final table. A generator numbers the names of an
expression in order of evaluation, as `internAll` does.
-/

namespace Formula.SymbolTable

/-- The map numbers exactly the entries. -/
structure Valid (table : SymbolTable) : Prop where
  size_le : table.entries.size ≤ capacity
  id?_iff : ∀ symbol id, table.id? symbol = some id ↔ table.get? id = some symbol

/-- A later table knows every symbol of an earlier one, under the same number and in front. -/
structure Grows (early late : SymbolTable) : Prop where
  id? : ∀ symbol id, early.id? symbol = some id → late.id? symbol = some id
  get? : ∀ id symbol, early.get? id = some symbol → late.get? id = some symbol

/-- The number of a symbol that the table knows. -/
def number (table : SymbolTable) (symbol : Symbol) : SymbolId :=
  (table.id? symbol).getD 0

/-- Whether the table knows a symbol. -/
def Knows (table : SymbolTable) (symbol : Symbol) : Prop :=
  table.id? symbol = some (table.number symbol)

variable {table early middle late : SymbolTable} {symbol : Symbol} {id : SymbolId}

namespace Grows

theorem refl (table : SymbolTable) : table.Grows table :=
  ⟨fun _ _ h => h, fun _ _ h => h⟩

theorem trans (h₁ : early.Grows middle) (h₂ : middle.Grows late) : early.Grows late :=
  ⟨fun s i h => h₂.id? s i (h₁.id? s i h), fun i s h => h₂.get? i s (h₁.get? i s h)⟩

end Grows

theorem knows_of_id? (h : table.id? symbol = some id) : table.Knows symbol := by
  rw [Knows, number, h]
  rfl

theorem number_eq (h : table.id? symbol = some id) : table.number symbol = id := by
  rw [number, h]
  rfl

theorem Knows.mono (h : early.Knows symbol) (hGrows : early.Grows late) : late.Knows symbol :=
  knows_of_id? (hGrows.id? _ _ h)

theorem Valid.get?_number (hValid : table.Valid) (h : table.Knows symbol) :
    table.get? (table.number symbol) = some symbol :=
  (hValid.id?_iff _ _).mp h

/-- Every entry has a number. -/
theorem Valid.mem_toList_iff (hValid : table.Valid) :
    symbol ∈ table.toList ↔ ∃ id, table.get? id = some symbol := by
  constructor
  · intro hMem
    obtain ⟨i, hLt, hGet⟩ := List.mem_iff_getElem.mp hMem
    have hSize : i < 65536 := Nat.lt_of_lt_of_le hLt hValid.size_le
    refine ⟨UInt16.ofNat i, ?_⟩
    rw [get?, UInt16.toNat_ofNat_of_lt' hSize]
    exact Array.getElem?_eq_some_iff.mpr ⟨hLt, hGet⟩
  · rintro ⟨id, hGet⟩
    obtain ⟨hLt, hGet⟩ := Array.getElem?_eq_some_iff.mp hGet
    exact List.mem_iff_getElem.mpr ⟨id.toNat, hLt, hGet⟩

theorem valid_empty : empty.Valid where
  size_le := Nat.zero_le _
  id?_iff symbol id := by simp [id?, get?, empty]

/-- A symbol that is new gets the next number. -/
theorem id?_insert (ids : Std.HashMap Symbol SymbolId) (entries : Array Symbol)
    (new symbol : Symbol) (id : SymbolId) :
    (⟨ids.insert new id, entries.push new⟩ : SymbolTable).id? symbol =
      if new = symbol then some id else ids[symbol]? := by
  simp [id?, Std.HashMap.getElem?_insert]

theorem toNat_next (h : table.entries.size < capacity) :
    (UInt16.ofNat table.entries.size).toNat = table.entries.size :=
  Nat.mod_eq_of_lt h

theorem intern_valid_new (hValid : table.Valid) (hNew : table.ids[symbol]? = none)
    (hRoom : table.entries.size < capacity) :
    Valid ⟨table.ids.insert symbol (UInt16.ofNat table.entries.size),
      table.entries.push symbol⟩ where
  size_le := by
    rw [Array.size_push]
    exact hRoom
  id?_iff other id := by
    rw [id?_insert]
    show _ ↔ (table.entries.push symbol)[id.toNat]? = some other
    rw [Array.getElem?_push]
    have hOther : table.ids[other]? = some id ↔ table.entries[id.toNat]? = some other :=
      hValid.id?_iff other id
    have hNext := toNat_next hRoom
    split_ifs with hSame hId hId
    · exact iff_of_true (congrArg some (UInt16.toNat_inj.mp (hNext.trans hId.symm)))
        (congrArg some hSame)
    · -- the new symbol has no other number
      subst hSame
      rw [← hOther, hNew]
      simp only [Option.some.injEq, reduceCtorEq, iff_false]
      rintro rfl
      exact hId hNext
    · rw [hOther, hId]
      simp [hSame]
    · exact hOther

theorem intern_grows_new (hNew : table.ids[symbol]? = none) :
    table.Grows ⟨table.ids.insert symbol (UInt16.ofNat table.entries.size),
      table.entries.push symbol⟩ where
  id? other id h := by
    rw [id?_insert]
    split_ifs with hSame
    · subst hSame
      exact absurd h (by rw [SymbolTable.id?, hNew]; simp)
    · exact h
  get? id other h := by
    have hLt : id.toNat < table.entries.size := (Array.getElem?_eq_some_iff.mp h).1
    show (table.entries.push symbol)[id.toNat]? = some other
    rw [Array.getElem?_push, if_neg (by omega)]
    exact h

/-- What numbering a symbol does to a table. -/
theorem intern_some (hValid : table.Valid) (h : table.intern symbol = (some id, late)) :
    late.Valid ∧ table.Grows late ∧ late.id? symbol = some id := by
  unfold intern at h
  split at h
  · rename_i old hOld
    cases h
    exact ⟨hValid, .refl _, hOld⟩
  · rename_i hNew
    split_ifs at h with hRoom
    · cases h
      refine ⟨intern_valid_new hValid hNew hRoom, intern_grows_new hNew, ?_⟩
      rw [id?_insert, if_pos rfl]
    · cases h

/-- In a valid table, exactly the entries have numbers. -/
theorem Valid.isSome_id?_iff (hValid : table.Valid) :
    (table.id? symbol).isSome ↔ symbol ∈ table.toList := by
  rw [hValid.mem_toList_iff, Option.isSome_iff_exists]
  exact exists_congr fun id => hValid.id?_iff symbol id

theorem Valid.id?_eq_none (hValid : table.Valid) (hNew : symbol ∉ table.toList) :
    table.ids[symbol]? = none :=
  Option.not_isSome_iff_eq_none.mp (mt hValid.isSome_id?_iff.mp hNew)

/-- A symbol that has a number keeps it. -/
theorem Valid.intern_of_mem (hValid : table.Valid) (hKnown : symbol ∈ table.toList) :
    ∃ id, table.id? symbol = some id ∧ table.intern symbol = (some id, table) := by
  obtain ⟨id, hId⟩ := Option.isSome_iff_exists.mp (hValid.isSome_id?_iff.mpr hKnown)
  have hFound : table.ids[symbol]? = some id := hId
  refine ⟨id, hId, ?_⟩
  simp only [intern, hFound]

/-- A new symbol gets the next number if there is one. -/
theorem Valid.intern_of_room (hValid : table.Valid) (hNew : symbol ∉ table.toList)
    (hRoom : table.toList.length < capacity) :
    ∃ late, table.intern symbol = (some (UInt16.ofNat table.size), late) ∧ late.Valid ∧
      late.toList = table.toList ++ [symbol] := by
  have hSize : table.entries.size < capacity := hRoom
  refine ⟨_, ?_, intern_valid_new hValid (hValid.id?_eq_none hNew) hSize, Array.toList_push⟩
  simp only [intern, hValid.id?_eq_none hNew, if_pos hSize, size]

/-- A new symbol gets no number from a full table. -/
theorem Valid.intern_of_full (hValid : table.Valid) (hNew : symbol ∉ table.toList)
    (hFull : table.toList.length = capacity) : table.intern symbol = (none, table) := by
  have hSize : ¬table.entries.size < capacity := Nat.not_lt.mpr (Nat.le_of_eq hFull.symm)
  simp only [intern, hValid.id?_eq_none hNew, if_neg hSize]

/-! ## Several symbols -/

/-- Numbers symbols in turn. -/
def internAll (table : SymbolTable) : List Symbol → Option SymbolTable
  | [] => some table
  | symbol :: symbols =>
    match table.intern symbol with
    | (none, _) => none
    | (some _, table) => table.internAll symbols

theorem internAll_append (table : SymbolTable) (symbols more : List Symbol) :
    table.internAll (symbols ++ more) = (table.internAll symbols).bind (·.internAll more) := by
  induction symbols generalizing table with
  | nil => rfl
  | cons symbol symbols ih =>
    simp only [List.cons_append, internAll]
    split
    · rfl
    · exact ih _

theorem internAll_append_some {α : Type} {f : α → Symbol} {names more : List α}
    (h : table.internAll ((names ++ more).map f) = some late) :
    ∃ middle, table.internAll (names.map f) = some middle ∧
      middle.internAll (more.map f) = some late := by
  rw [List.map_append, internAll_append] at h
  exact Option.bind_eq_some_iff.mp h

theorem internAll_singleton (h : table.intern symbol = (some id, late)) :
    table.internAll [symbol] = some late := by
  rw [internAll, h]
  rfl

/-- A symbol can be numbered in an empty table. -/
theorem internAll_empty_singleton (symbol : Symbol) :
    ∃ table, empty.internAll [symbol] = some table := by
  simp [internAll, intern, empty, capacity]

theorem intern_of_internAll (h : table.internAll [symbol] = some late) :
    ∃ id, table.intern symbol = (some id, late) := by
  rw [internAll] at h
  cases hIntern : table.intern symbol with
  | mk found next =>
    rw [hIntern] at h
    cases found with
    | none => cases h
    | some id =>
      cases h
      exact ⟨id, rfl⟩

/-- Every symbol of a table that has grown by interning was there before or has been interned. -/
theorem get?_of_intern {other : Symbol} {otherId : SymbolId}
    (h : table.intern symbol = (some id, late)) (hGet : late.get? otherId = some other) :
    table.get? otherId = some other ∨ other = symbol := by
  unfold intern at h
  split at h
  · cases h
    exact .inl hGet
  · split_ifs at h
    · cases h
      have hPush : (table.entries.push symbol)[otherId.toNat]? = some other := hGet
      rw [Array.getElem?_push] at hPush
      split_ifs at hPush
      · exact .inr (Option.some.inj hPush).symm
      · exact .inl hPush
    · cases h

theorem internAll_some {symbols : List Symbol} (hValid : table.Valid)
    (h : table.internAll symbols = some late) :
    late.Valid ∧ table.Grows late ∧ (∀ symbol ∈ symbols, late.Knows symbol) ∧
      ∀ id symbol, late.get? id = some symbol → table.get? id = some symbol ∨ symbol ∈ symbols := by
  induction symbols generalizing table with
  | nil =>
    cases h
    exact ⟨hValid, .refl _, nofun, fun _ _ hGet => .inl hGet⟩
  | cons symbol symbols ih =>
    rw [internAll] at h
    split at h
    · cases h
    · rename_i id middle hIntern
      obtain ⟨hMiddle, hGrows, hId⟩ := intern_some hValid hIntern
      obtain ⟨hLate, hGrows', hKnows, hGet⟩ := ih hMiddle h
      refine ⟨hLate, hGrows.trans hGrows', ?_, ?_⟩
      · exact List.forall_mem_cons.mpr ⟨(knows_of_id? hId).mono hGrows', hKnows⟩
      · intro otherId other hOther
        rcases hGet otherId other hOther with hBefore | hAfter
        · rcases get?_of_intern hIntern hBefore with hOld | rfl
          · exact .inl hOld
          · exact .inr (List.mem_cons_self ..)
        · exact .inr (List.mem_cons_of_mem _ hAfter)

/-! ## The order of symbols -/

/-- Numbering leaves the symbols that have a number in front. -/
theorem toList_intern (h : table.intern symbol = (some id, late)) :
    table.toList <+: late.toList := by
  unfold intern at h
  split at h
  · cases h
    exact List.prefix_rfl
  · split_ifs at h
    · cases h
      exact ⟨[symbol], (Array.toList_push ..).symm⟩
    · cases h

theorem toList_internAll {symbols : List Symbol} (h : table.internAll symbols = some late) :
    table.toList <+: late.toList := by
  induction symbols generalizing table with
  | nil =>
    cases h
    exact List.prefix_rfl
  | cons symbol symbols ih =>
    rw [internAll] at h
    split at h
    · cases h
    · rename_i id middle hIntern
      exact (toList_intern hIntern).trans (ih h)

/-- A new symbol follows those that have a number. -/
theorem toList_internAll_new {symbols : List Symbol} (hNew : table.id? symbol = none)
    (h : table.internAll (symbol :: symbols) = some late) :
    ∃ later, late.toList = table.toList ++ symbol :: later := by
  rw [internAll, intern, show table.ids[symbol]? = none from hNew] at h
  dsimp only at h
  split at h
  · cases h
  · rename_i id middle hIntern
    split_ifs at hIntern
    · cases hIntern
      obtain ⟨later, hLater⟩ := toList_internAll h
      refine ⟨later, ?_⟩
      rw [← hLater]
      simp [toList]
    · cases hIntern

end Formula.SymbolTable
