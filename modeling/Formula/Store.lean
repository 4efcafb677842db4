import Formula.Builtin

/-!
# Variables

A variable is a cell that holds a double. Everything that refers to the same cell sees the same
value. A `Store` holds the values of cells that the program itself has made.
-/

namespace Formula

/-- The place of a variable's value. -/
abbrev Cell := Nat

/-- The values of the cells numbered from zero on. -/
structure Store where
  values : Array Float
deriving Inhabited

namespace Store

/-- The store without cells. -/
def empty : Store :=
  ⟨#[]⟩

/-- The value of a cell. -/
def read (store : Store) (cell : Cell) : Float :=
  store.values[cell]?.getD Builtin.nan

/-- Gives a cell a value. -/
def write (store : Store) (cell : Cell) (value : Float) : Store :=
  ⟨store.values.setIfInBounds cell value⟩

/-- A new cell with a value. -/
def fresh (store : Store) (value : Float) : Cell × Store :=
  (store.values.size, ⟨store.values.push value⟩)

end Store

end Formula
