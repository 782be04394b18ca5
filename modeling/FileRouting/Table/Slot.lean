import FileRouting.Table.Basic

/-!
# Replacing tables

A slot holds the current table. A table once read from it stays what it is when the slot gets
another one.
-/

namespace FileRouting

namespace Table

/-- A place for the current table, empty at first. -/
structure Slot where
  current : Table := .empty
  deriving DecidableEq, Repr

/-- The previous table, and the slot with the new one. -/
def Slot.replace (s : Slot) (table : Table) : Table × Slot := (s.current, ⟨table⟩)

end Table

end FileRouting
