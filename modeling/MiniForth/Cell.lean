import MiniForth.Text.Decimal

/-!
# Cells

The unit of storage. A cell is a signed 64-bit integer: a number on the parameter stack, or, in code
memory, the index of a word or the operand of a literal. Addition of cells wraps around.
-/

namespace MiniForth

/-- A signed 64-bit integer. -/
abbrev Cell := Int64

namespace Cell

/-- The cell in decimal. -/
def text (c : Cell) : String := Decimal.ofInt c.toInt

/-- Cells in a row, with single spaces between them. -/
def rowText (cells : List Cell) : String := " ".intercalate (cells.map text)

/-- The cell with value `i`, unless `i` needs more than 64 bits. -/
def ofInt? (i : Int) : Option Cell :=
  if -0x8000000000000000 ≤ i ∧ i < 0x8000000000000000 then some (Int64.ofInt i) else none

/-- The cell that stands for the word at `index`. -/
def ofIndex (index : Nat) : Cell := Int64.ofNat index

/-- The index a cell stands for; a negative cell stands for none. -/
def index? (c : Cell) : Option Nat :=
  match c.toInt with
  | .ofNat n   => some n
  | .negSucc _ => none

/-- The low 24 bits of the cell. -/
def low24 (c : Cell) : Nat := c.toUInt64.toNat % 0x1000000

theorem toInt_of_ofInt? {i : Int} {c : Cell} (h : ofInt? i = some c) : c.toInt = i := by
  unfold ofInt? at h
  split at h
  · next hi =>
    cases h
    exact Int64.toInt_ofInt_of_le (by simpa using hi.1) (by simpa using hi.2)
  · cases h

@[simp] theorem ofInt?_toInt (c : Cell) : ofInt? c.toInt = some c := by
  rw [ofInt?, if_pos ⟨c.le_toInt, c.toInt_lt⟩, Int64.ofInt_toInt]

end Cell

end MiniForth
