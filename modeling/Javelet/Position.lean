/-!
# Source positions

A position names a place in a source text by line and column. Lines are counted
from 1, columns from 0; a tab is as wide as `tabWidth` columns.
-/
namespace Javelet

/-- Columns that a tab advances. -/
def tabWidth : Nat := 4

/-- A place in a source text. -/
structure Position where
  /-- Line, counted from 1. -/
  line : Nat
  /-- Column, counted from 0. -/
  column : Nat
  deriving DecidableEq, Repr, Inhabited

namespace Position

/-- The first place of every text. -/
def start : Position := ⟨1, 0⟩

/-- The place `width` columns further on the same line. -/
def right (p : Position) (width : Nat) : Position := ⟨p.line, p.column + width⟩

/-- The first place of the next line. -/
def nextLine (p : Position) : Position := ⟨p.line + 1, 0⟩

/-- A position is written `line:column`. -/
def text (p : Position) : String := p.line.repr ++ ":" ++ p.column.repr

end Position

end Javelet
