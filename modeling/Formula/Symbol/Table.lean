import Std.Data.HashMap
import Formula.Symbol

/-!
# Symbol tables

A `SymbolTable` numbers symbols from zero on, in the order in which they are first seen. There are
at most `SymbolTable.capacity` numbers.
-/

namespace Formula

/-- Symbols with their numbers: `ids` is the inverse of `entries`. -/
structure SymbolTable where
  ids : Std.HashMap Symbol SymbolId
  entries : Array Symbol

namespace SymbolTable

/-- How many symbols a table can hold. -/
def capacity : Nat := 65536

/-- The table without symbols. -/
def empty : SymbolTable :=
  ⟨∅, #[]⟩

instance : Inhabited SymbolTable := ⟨empty⟩

/-- Number of symbols. -/
def size (table : SymbolTable) : Nat :=
  table.entries.size

/-- The number of a symbol. -/
def id? (table : SymbolTable) (symbol : Symbol) : Option SymbolId :=
  table.ids[symbol]?

/-- The symbol with a number. -/
def get? (table : SymbolTable) (id : SymbolId) : Option Symbol :=
  table.entries[id.toNat]?

/-- The number of a symbol, a new one if the symbol is new. None is left for a new symbol once the
table is full. -/
def intern (table : SymbolTable) (symbol : Symbol) : Option SymbolId × SymbolTable :=
  match table.ids[symbol]? with
  | some id => (some id, table)
  | none =>
    if table.entries.size < capacity then
      let id := UInt16.ofNat table.entries.size
      (some id, ⟨table.ids.insert symbol id, table.entries.push symbol⟩)
    else (none, table)

/-- The symbols by number. -/
def toList (table : SymbolTable) : List Symbol :=
  table.entries.toList

/-- The symbols by number, each with its number. -/
def iter (table : SymbolTable) : List (SymbolId × Symbol) :=
  table.toList.zipIdx.map fun (symbol, i) => (UInt16.ofNat i, symbol)

end SymbolTable

end Formula
