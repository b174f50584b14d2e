import MiniForth.Text.Decimal

/-!
# Locations

Where a piece of text stands: the name of its source, the line, and the column. Columns count
characters, not bytes, and the first one is column 1.
-/

namespace MiniForth

/-- A place in a source. -/
structure Location where
  path   : String
  line   : Nat
  column : Nat
  deriving DecidableEq, Inhabited, Repr

namespace Location

/-- The location as it appears in messages: `path (line, column)`. -/
def text (l : Location) : String :=
  l.path ++ " (" ++ Decimal.ofNat l.line ++ ", " ++ Decimal.ofNat l.column ++ ")"

/-- The place `count` characters further on the same line. -/
def advance (l : Location) (count : Nat) : Location := { l with column := l.column + count }

@[simp] theorem advance_zero (l : Location) : l.advance 0 = l := rfl

@[simp] theorem advance_advance (l : Location) (m n : Nat) :
    (l.advance m).advance n = l.advance (m + n) := by
  simp [advance, Nat.add_assoc]

end Location

end MiniForth
