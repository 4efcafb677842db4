import Formula.Proofs.Numbering

/-!
# Numbers by first occurrence

Symbols, variables and functions get their numbers by calls, and further calls may follow one that
got none. `Numbers table keys` says that a table has numbered these keys: it holds the distinct ones
in the order of their first occurrences, as far as there are numbers. A call keeps this for one more
key (`Numbers.intern`), so it is true after any calls (`numbers_run`). A key whose number is settled,
since it has one or since there is none left, never gets another (`id?_run`), so the answers to all
calls can be read off the last table (`answers_run`).
-/

namespace Formula.SymbolTable

/-! ## Calls -/

/-- A call for a number: of a symbol, of a variable, or of a function. -/
inductive Call where
  | symbol (symbol : Symbol)
  | var (name : String)
  | function (signature : Signature)

/-- The symbol that a call is for. -/
def Call.key : Call → Symbol
  | .symbol s => s
  | .var name => .ofVar name
  | .function signature => .ofSignature signature

/-- The answers to several calls, and the table after them. -/
def run (table : SymbolTable) : List Call → List (Option SymbolId) × SymbolTable
  | [] => ([], table)
  | call :: calls =>
    let (answer, next) := table.intern call.key
    let (answers, last) := next.run calls
    (answer :: answers, last)

theorem run_append (table : SymbolTable) (calls more : List Call) :
    (table.run (calls ++ more)).2 = ((table.run calls).2.run more).2 := by
  induction calls generalizing table with
  | nil => rfl
  | cons call calls ih => exact ih (table.intern call.key).2

variable {table : SymbolTable} {symbol other : Symbol} {result : Option SymbolId × SymbolTable}

/-- What a call for a symbol does. -/
inductive Interns (table : SymbolTable) (symbol : Symbol) : Option SymbolId × SymbolTable → Prop
  | known {id : SymbolId} (hKnown : symbol ∈ table.toList) (hId : table.id? symbol = some id) :
    Interns table symbol (some id, table)
  | new {late : SymbolTable} (hNew : symbol ∉ table.toList)
    (hRoom : table.toList.length < capacity) (hValid : late.Valid) (hGrows : table.Grows late)
    (hId : late.id? symbol = some (UInt16.ofNat table.size))
    (hEntries : late.toList = table.toList ++ [symbol]) :
    Interns table symbol (some (UInt16.ofNat table.size), late)
  | full (hNew : symbol ∉ table.toList) (hFull : table.toList.length = capacity) :
    Interns table symbol (none, table)

theorem Valid.interns (hValid : table.Valid) (symbol : Symbol) :
    table.Interns symbol (table.intern symbol) := by
  by_cases hKnown : symbol ∈ table.toList
  · obtain ⟨id, hId, hIntern⟩ := hValid.intern_of_mem hKnown
    rw [hIntern]
    exact .known hKnown hId
  · by_cases hRoom : table.toList.length < capacity
    · obtain ⟨late, hIntern, hLate, hEntries⟩ := hValid.intern_of_room hKnown hRoom
      obtain ⟨-, hGrows, hId⟩ := intern_some hValid hIntern
      rw [hIntern]
      exact .new hKnown hRoom hLate hGrows hId hEntries
    · have hFull := Nat.le_antisymm hValid.size_le (Nat.le_of_not_lt hRoom)
      rw [hValid.intern_of_full hKnown hFull]
      exact .full hKnown hFull

/-- A symbol gets no number exactly if it is new and all numbers are taken. -/
theorem Valid.intern_eq_none_iff (hValid : table.Valid) :
    (table.intern symbol).1 = none ↔ table.id? symbol = none ∧ table.size = capacity := by
  have hInterns := hValid.interns symbol
  generalize table.intern symbol = result at hInterns
  cases hInterns with
  | known _ hId => exact iff_of_false nofun fun h => Option.some_ne_none _ (hId.symm.trans h.1)
  | new _ hRoom => exact iff_of_false nofun fun h => Nat.ne_of_lt hRoom h.2
  | full hNew hFull => exact iff_of_true rfl ⟨hValid.id?_eq_none hNew, hFull⟩

theorem Valid.intern_of_none (hValid : table.Valid) (hNone : (table.intern symbol).1 = none) :
    (table.intern symbol).2 = table := by
  have hInterns := hValid.interns symbol
  generalize table.intern symbol = result at hInterns hNone
  cases hInterns with
  | full => rfl
  | _ => cases hNone

theorem Valid.intern_of_id? {id : SymbolId} (hValid : table.Valid)
    (hId : table.id? symbol = some id) : table.intern symbol = (some id, table) := by
  have hKnown := hValid.isSome_id?_iff.mp (Option.isSome_of_eq_some hId)
  obtain ⟨id', hId', hIntern⟩ := hValid.intern_of_mem hKnown
  obtain rfl := Option.some.inj (hId.symm.trans hId')
  exact hIntern

/-! ## Settled symbols -/

/-- Whether it is settled which number a symbol has, if any. -/
def Settled (table : SymbolTable) (symbol : Symbol) : Prop :=
  symbol ∈ table.toList ∨ table.toList.length = capacity

/-- A call settles its symbol as it answers. -/
theorem Interns.settled (h : table.Interns symbol result) (hValid : table.Valid) :
    result.2.Valid ∧ result.2.Settled symbol ∧ result.1 = result.2.id? symbol := by
  cases h with
  | known hKnown hId => exact ⟨hValid, .inl hKnown, hId.symm⟩
  | new _ _ hLate _ hId hEntries => exact ⟨hLate, .inl (by simp [hEntries]), hId.symm⟩
  | full hNew hFull => exact ⟨hValid, .inr hFull, (hValid.id?_eq_none hNew).symm⟩

/-- A settled symbol stays as it is, whatever is numbered next. -/
theorem Interns.id?_eq (h : table.Interns other result) (hValid : table.Valid)
    (hSettled : table.Settled symbol) :
    result.2.Settled symbol ∧ result.2.id? symbol = table.id? symbol := by
  cases h with
  | known => exact ⟨hSettled, rfl⟩
  | full => exact ⟨hSettled, rfl⟩
  | new hNew hRoom hLate hGrows hId hEntries =>
    have hKnown := hSettled.resolve_right (Nat.ne_of_lt hRoom)
    obtain ⟨id, hSymbol⟩ := Option.isSome_iff_exists.mp (hValid.isSome_id?_iff.mpr hKnown)
    refine ⟨.inl ?_, (hGrows.id? _ _ hSymbol).trans hSymbol.symm⟩
    rw [hEntries]
    exact List.mem_append_left _ hKnown

theorem id?_run (hValid : table.Valid) (hSettled : table.Settled symbol) (calls : List Call) :
    (table.run calls).2.id? symbol = table.id? symbol := by
  induction calls generalizing table with
  | nil => rfl
  | cons call calls ih =>
    have hInterns := hValid.interns call.key
    obtain ⟨hNext, hSame⟩ := hInterns.id?_eq hValid hSettled
    exact (ih (hInterns.settled hValid).1 hNext).trans hSame

/-- Every call is answered with the number that its symbol has in the end. -/
theorem answers_run (hValid : table.Valid) (calls : List Call) :
    (table.run calls).1 = calls.map fun call => (table.run calls).2.id? call.key := by
  induction calls generalizing table with
  | nil => rfl
  | cons call calls ih =>
    obtain ⟨hNext, hSettled, hAnswer⟩ := (hValid.interns call.key).settled hValid
    refine List.cons_eq_cons.mpr ⟨?_, ih hNext⟩
    exact hAnswer.trans (id?_run hNext hSettled calls).symm

/-! ## Keys in order -/

section Take

variable {α : Type} [DecidableEq α] {xs : List α} {x : α} {n : Nat}

theorem take_eraseDups_concat_of_mem (h : x ∈ xs) :
    (xs ++ [x]).eraseDups.take n = xs.eraseDups.take n := by
  rw [eraseDups_concat_of_mem h]

theorem take_eraseDups_concat_of_lt (h : x ∉ xs.eraseDups.take n)
    (hRoom : (xs.eraseDups.take n).length < n) :
    (xs ++ [x]).eraseDups.take n = xs.eraseDups.take n ++ [x] := by
  have hShort : xs.eraseDups.length < n := by
    rw [List.length_take] at hRoom
    omega
  rw [List.take_of_length_le (Nat.le_of_lt hShort)] at h ⊢
  rw [eraseDups_concat_of_not_mem (mt List.mem_eraseDups.mpr h), List.take_of_length_le]
  rw [List.length_append, List.length_singleton]
  exact hShort

theorem take_eraseDups_concat_of_full (hFull : (xs.eraseDups.take n).length = n) :
    (xs ++ [x]).eraseDups.take n = xs.eraseDups.take n := by
  by_cases h : x ∈ xs
  · exact take_eraseDups_concat_of_mem h
  · rw [eraseDups_concat_of_not_mem h, List.take_append_of_le_length]
    rw [List.length_take] at hFull
    omega

end Take

/-- A table has numbered these keys: it holds the distinct ones in the order of their first
occurrences, as far as there are numbers. -/
structure Numbers (table : SymbolTable) (keys : List Symbol) : Prop where
  valid : table.Valid
  toList_eq : table.toList = keys.eraseDups.take capacity

namespace Numbers

variable {keys : List Symbol}

theorem nil : empty.Numbers [] where
  valid := valid_empty
  toList_eq := rfl

/-- A call adds its key. -/
theorem intern (h : table.Numbers keys) (key : Symbol) :
    (table.intern key).2.Numbers (keys ++ [key]) := by
  have hInterns := h.valid.interns key
  have hList := h.toList_eq
  refine ⟨(hInterns.settled h.valid).1, ?_⟩
  generalize table.intern key = result at hInterns
  cases hInterns with
  | known hKnown =>
    have hMem : key ∈ keys := by
      rw [hList] at hKnown
      exact List.mem_eraseDups.mp (List.mem_of_mem_take hKnown)
    rw [take_eraseDups_concat_of_mem hMem, ← hList]
  | new hNew hRoom _ _ _ hEntries =>
    rw [hList] at hNew hRoom
    rw [take_eraseDups_concat_of_lt hNew hRoom, ← hList]
    exact hEntries
  | full _ hFull =>
    rw [hList] at hFull
    rw [take_eraseDups_concat_of_full hFull, ← hList]

theorem run (h : table.Numbers keys) (calls : List Call) :
    (table.run calls).2.Numbers (keys ++ calls.map Call.key) := by
  induction calls generalizing table keys with
  | nil => rwa [List.map_nil, List.append_nil]
  | cons call calls ih =>
    rw [List.map_cons, List.append_cons]
    exact ih (h.intern call.key)

theorem size_eq (h : table.Numbers keys) : table.size = min capacity keys.toFinset.card := by
  rw [← length_eraseDups, ← List.length_take, ← h.toList_eq]
  rfl

/-- The numbers are the places among the distinct keys. -/
theorem id?_iff (h : table.Numbers keys) (symbol : Symbol) (id : SymbolId) :
    table.id? symbol = some id ↔ keys.eraseDups[id.toNat]? = some symbol := by
  have hBelow : id.toNat < capacity := id.toNat_lt
  rw [h.valid.id?_iff, get?, ← Array.getElem?_toList]
  show table.toList[id.toNat]? = _ ↔ _
  rw [h.toList_eq, List.getElem?_take_of_lt hBelow]

end Numbers

theorem numbers_run (calls : List Call) : (empty.run calls).2.Numbers (calls.map Call.key) :=
  Numbers.nil.run calls

/-! ## Numbers in a valid table -/

namespace Valid

variable {id : SymbolId}

/-- The numbers that are taken are the first ones. -/
theorem exists_id?_iff (hValid : table.Valid) (id : SymbolId) :
    (∃ symbol, table.id? symbol = some id) ↔ id.toNat < table.size := by
  simp only [hValid.id?_iff, get?, Array.getElem?_eq_some_iff, size]
  constructor
  · rintro ⟨-, hLt, -⟩
    exact hLt
  · intro hLt
    exact ⟨_, hLt, rfl⟩

theorem id?_iff_name_kind (hValid : table.Valid) (name : String) (kind : SymbolKind)
    (id : SymbolId) : table.id? ⟨name, kind⟩ = some id ↔
      (table.get? id).map Symbol.name = some name ∧
        (table.get? id).map Symbol.kind = some kind := by
  rw [hValid.id?_iff]
  cases table.get? id with
  | none => simp
  | some symbol =>
    simp only [Option.map_some, Option.some.injEq]
    exact ⟨fun h => by simp [h], fun ⟨hName, hKind⟩ => by rw [← hName, ← hKind]⟩

/-- Different symbols have different numbers. -/
theorem eq_of_id? (hValid : table.Valid) (h : table.id? symbol = some id)
    (hOther : table.id? other = some id) : symbol = other := by
  rw [hValid.id?_iff] at h hOther
  exact Option.some.inj (h.symm.trans hOther)

/-- The symbols are listed with the numbers from zero on. -/
theorem map_toNat_iter (hValid : table.Valid) :
    table.iter.map (fun entry => entry.1.toNat) = List.range table.size := by
  have hRange : table.toList.zipIdx.map Prod.snd = List.range table.size := by
    rw [List.zipIdx_map_snd, List.range_eq_range']
    rfl
  rw [iter, List.map_map, ← hRange]
  refine List.map_congr_left fun entry hMem => UInt16.toNat_ofNat_of_lt' ?_
  have hLt : entry.2 < table.toList.length := List.snd_lt_of_mem_zipIdx hMem
  exact Nat.lt_of_lt_of_le hLt hValid.size_le

theorem mem_iter_iff (hValid : table.Valid) :
    (id, symbol) ∈ table.iter ↔ table.get? id = some symbol := by
  have hGet : ∀ i, (symbol, i) ∈ table.toList.zipIdx ↔ table.entries[i]? = some symbol := by
    intro i
    rw [List.mk_mem_zipIdx_iff_getElem?, ← Array.getElem?_toList]
    rfl
  rw [iter, List.mem_map, get?]
  constructor
  · rintro ⟨⟨listed, i⟩, hMem, hEq⟩
    obtain ⟨rfl, rfl⟩ := Prod.mk.inj hEq
    have hLt := List.snd_lt_of_mem_zipIdx hMem
    rw [UInt16.toNat_ofNat_of_lt' (Nat.lt_of_lt_of_le hLt hValid.size_le)]
    exact (hGet i).mp hMem
  · intro hEntry
    exact ⟨(symbol, id.toNat), (hGet _).mpr hEntry, Prod.ext (UInt16.ofNat_toNat ..) rfl⟩

end Valid

/-! ## Any calls on a new table -/

/-- After any calls on a new table, it holds the distinct keys of the calls, at most as many as
there are numbers, and their numbers are their places in the order of first occurrence. A call gets
no number exactly if its key is new and all numbers are taken, and then changes nothing; a key that
has a number keeps it, so every call has been answered with the number that its key has in the end.
The table lists its symbols with the numbers from zero on. Two calls for functions never share a
number unless the functions are the same, and a variable never shares one with a function. -/
theorem numbers_dense_stable_injective (calls : List Call) :
    let answers := (empty.run calls).1
    let table := (empty.run calls).2
    table.size = min capacity (calls.map Call.key).toFinset.card ∧
    (∀ symbol id, table.id? symbol = some id ↔
      (calls.map Call.key).eraseDups[id.toNat]? = some symbol) ∧
    (∀ id : SymbolId, (∃ symbol, table.id? symbol = some id) ↔ id.toNat < table.size) ∧
    (∀ name kind id, table.id? ⟨name, kind⟩ = some id ↔
      (table.get? id).map Symbol.name = some name ∧
        (table.get? id).map Symbol.kind = some kind) ∧
    (∀ call : Call,
      ((table.intern call.key).1 = none ↔ table.id? call.key = none ∧ table.size = capacity) ∧
      ((table.intern call.key).1 = none → (table.intern call.key).2 = table) ∧
      ∀ id, table.id? call.key = some id → table.intern call.key = (some id, table) ∧
        ∀ more, (empty.run (calls ++ more)).2.id? call.key = some id) ∧
    answers = calls.map (fun call => table.id? call.key) ∧
    table.iter.map (fun entry => entry.1.toNat) = List.range table.size ∧
    (∀ id symbol, (id, symbol) ∈ table.iter ↔ table.id? symbol = some id) ∧
    (∀ signature other id, (.function signature, some id) ∈ calls.zip answers →
      (.function other, some id) ∈ calls.zip answers → signature = other) ∧
    ∀ first second id, (first, some id) ∈ calls.zip answers →
      (second, some id) ∈ calls.zip answers →
        (first.key.kind = .var ↔ second.key.kind = .var) := by
  intro answers table
  have hNumbers : table.Numbers (calls.map Call.key) := numbers_run calls
  have hValid : table.Valid := hNumbers.valid
  have hAnswers : answers = calls.map fun call => table.id? call.key :=
    answers_run valid_empty calls
  have hAnswered : ∀ call id, (call, some id) ∈ calls.zip answers →
      table.id? call.key = some id := by
    intro call id hMem
    rw [hAnswers, ← List.map_prod_left_eq_zip, List.mem_map] at hMem
    obtain ⟨_, -, hEq⟩ := hMem
    obtain ⟨rfl, hId⟩ := Prod.mk.inj hEq
    exact hId
  have hShared : ∀ first second id, (first, some id) ∈ calls.zip answers →
      (second, some id) ∈ calls.zip answers → first.key = second.key :=
    fun first second id h h' => hValid.eq_of_id? (hAnswered first id h) (hAnswered second id h')
  refine ⟨hNumbers.size_eq, hNumbers.id?_iff, hValid.exists_id?_iff, hValid.id?_iff_name_kind,
    fun call => ⟨hValid.intern_eq_none_iff, fun hNone => ?_, fun id hId => ⟨?_, fun more => ?_⟩⟩,
    hAnswers, hValid.map_toNat_iter, fun id symbol => ?_, ?_, ?_⟩
  · exact hValid.intern_of_none hNone
  · exact hValid.intern_of_id? hId
  · have hKnown := hValid.isSome_id?_iff.mp (Option.isSome_of_eq_some hId)
    rw [run_append]
    exact (id?_run hValid (.inl hKnown) more).trans hId
  · rw [hValid.mem_iter_iff, hValid.id?_iff]
  · intro signature other id h h'
    have hSame : (Reference.call signature).symbol = (Reference.call other).symbol :=
      hShared _ _ id h h'
    exact Reference.call.inj (Reference.symbol_injective hSame)
  · intro first second id h h'
    rw [hShared first second id h h']

end Formula.SymbolTable
